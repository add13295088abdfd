import RuShell.Peek.Forward

/-!
# The two readers of `peek -r` agree

`peek_reverse_buffered_fd` collects the lines of a source in the order they are
read; `peek_reverse_seek_fd` walks backwards through the file, carries the first
line of what it has seen over to the chunk before, and so collects the lines in
reverse order.  What is printed from the two lists is the same: the listing of
the file from its last line to its first.

The capacity of the list of lines doubles from 128 and that of one line from
256, and both are of type `int`; so neither can have more than `2 ^ 30` entries.
A chunk and what is carried over to it together have a length that is an `int`.

## Main definitions

* `PeekLineList.Sound` — the capacities that can occur.
* `Fits`, `SeekFits` — the sources that the two readers can hold.
* `regular content` — what `lseek` says about a regular file.

## Main results

* `bufferedLoop_spec`, `peekReverseBufferedFd_spec` — the list in forward order.
* `scanBack_spec`, `seekLoop_spec`, `peekReverseSeekFd_spec` — the list in
  reverse order.
* `reverse_readers_agree` — **the same lines are printed, with the same numbers**,
  exactly if the source fits.
* `long_line_splits_readers` — a line of `2 ^ 30 + 1` bytes, which only one of them
  can read.
-/

namespace RuShell
namespace Peek

open Lib

/-- A line as it is pushed, without a number. -/
def fresh (data : Str) : PeekLine := ⟨data, 0⟩

/-! ### Pushing lines -/

/-- The lines fit the capacity, which has been doubled some times. -/
structure PeekLineList.Sound (ll : PeekLineList) : Prop where
  le_cap : ll.lines.length ≤ ll.cap
  cap_eq : ll.cap = 0 ∨ ∃ k ≤ 30, ll.cap = 2 ^ k

theorem sound_init : peekLinelistInit.Sound := ⟨Nat.le_refl _, .inl rfl⟩

/-- A capacity can be doubled unless it is `2 ^ 30`. -/
theorem double_cap {k : ℕ} (hk : k ≤ 30) :
    k + 1 ≤ 30 ∧ 2 ^ k * 2 = 2 ^ (k + 1) ∧ 2 ^ k * 2 ≤ intMax ∨ 2 ^ k = 2 ^ 30 := by
  rcases Nat.lt_or_eq_of_le hk with hlt | rfl
  · have hpow : 2 ^ (k + 1) ≤ 2 ^ 30 := Nat.pow_le_pow_right (by decide) hlt
    have hmax : 2 ^ 30 ≤ intMax := by decide
    rw [← pow_succ]
    exact .inl ⟨hlt, rfl, hpow.trans hmax⟩
  · exact .inr rfl

variable {ll : PeekLineList} {size : ℕ} {fd : Reader Char}

theorem PeekLineList.Sound.length_le (hll : ll.Sound) :
    ll.lines.length ≤ 2 ^ 30 := by
  have hle := hll.le_cap
  rcases hll.cap_eq with h0 | ⟨k, hk, hcap⟩
  · omega
  · have hpow : 2 ^ k ≤ 2 ^ 30 := Nat.pow_le_pow_right (by decide) hk
    omega

/-- There is room for `2 ^ 30` lines and no more. -/
theorem push_spec (hll : ll.Sound) (data : Str) :
    (∃ ll', peekLinelistPush ll data = some ll' ∧ ll'.lines = ll.lines ++ [fresh data] ∧
        ll'.Sound) ∨
      peekLinelistPush ll data = none ∧ 2 ^ 30 ≤ ll.lines.length := by
  unfold peekLinelistPush
  split
  · rename_i hfull
    rcases hll.cap_eq with h0 | ⟨k, hk, hcap⟩
    · -- the first allocation
      rw [h0] at hfull
      refine .inl ⟨⟨ll.lines ++ [fresh data], initialLineCap⟩, ?_, rfl, ?_, ?_⟩
      · rw [h0]
        rfl
      · show (ll.lines ++ [fresh data]).length ≤ initialLineCap
        rw [List.length_append, hfull, List.length_singleton]
        decide
      · exact .inr ⟨7, by decide, rfl⟩
    · have hne : 2 ^ k ≠ 0 := Nat.pos_iff_ne_zero.mp (Nat.two_pow_pos k)
      simp only [hcap, hne, if_false]
      rcases double_cap hk with ⟨hk', hdouble, hfit⟩ | hmax
      · rw [if_neg (by omega)]
        refine .inl ⟨⟨ll.lines ++ [fresh data], 2 ^ k * 2⟩, rfl, rfl, ?_,
          .inr ⟨k + 1, hk', hdouble⟩⟩
        show (ll.lines ++ [fresh data]).length ≤ 2 ^ k * 2
        rw [List.length_append, hfull, hcap, List.length_singleton]
        omega
      · rw [hfull, hcap, hmax, if_pos (by decide)]
        exact .inr ⟨rfl, le_refl _⟩
  · rename_i hfull
    refine .inl ⟨{ ll with lines := ll.lines ++ [fresh data] }, rfl, rfl, ?_, hll.cap_eq⟩
    have := hll.le_cap
    show (ll.lines ++ [fresh data]).length ≤ ll.cap
    rw [List.length_append, List.length_singleton]
    omega

/-! ### Numbers -/

/-- Numbering fresh lines in reading order gives the listing. -/
theorem assignNumbers_fresh (ops : PeekOptions) (lines : List Str) (no : ℕ) :
    (assignNumbers (lines.map fresh) no).1.map (peekPrintLine ops) = listing ops no lines ∧
    (assignNumbers (lines.map fresh) no).2 = no + lines.countP peekLineIsNonempty := by
  induction lines generalizing no with
  | nil => exact ⟨rfl, rfl⟩
  | cons line lines ih =>
    rw [listing_cons, List.map_cons, assignNumbers, List.countP_cons]
    by_cases hl : peekLineIsNonempty line = true
    · obtain ⟨ih₁, ih₂⟩ := ih (no + 1)
      rw [if_pos (show peekLineIsNonempty (fresh line).data = true from hl), if_pos hl]
      constructor
      · rw [List.map_cons, ih₁]
        simp [peekPrintLine, fresh, hl]
      · rw [ih₂]
        omega
    · obtain ⟨ih₁, ih₂⟩ := ih no
      rw [if_neg (show ¬ peekLineIsNonempty (fresh line).data = true from hl), if_neg hl]
      constructor
      · rw [List.map_cons, ih₁]
        simp [peekPrintLine, fresh, hl]
      · exact ih₂

/-! ### Collecting lines -/

/-- The lines of a source fit their buffers, and the list together with those `held`. -/
def Fits (held : ℕ) (lines : List Str) : Prop :=
  (∀ line ∈ lines, line.length ≤ 2 ^ 30) ∧ held + lines.length ≤ 2 ^ 30

instance (held : ℕ) (lines : List Str) : Decidable (Fits held lines) :=
  inferInstanceAs (Decidable (_ ∧ _))

theorem fits_cons {held : ℕ} {line : Str} {lines : List Str} :
    Fits held (line :: lines) ↔ line.length ≤ 2 ^ 30 ∧ Fits (held + 1) lines := by
  simp only [Fits, List.forall_mem_cons, List.length_cons, and_assoc]
  rw [Nat.add_assoc, Nat.add_comm 1]

/-- The buffer has room for one more byte unless there are `2 ^ 30` in it. -/
theorem growBuf_spec {len k : ℕ} (hk : k ≤ 30) (hle : len ≤ 2 ^ k) :
    (∃ k' ≤ 30, growBuf (2 ^ k) len = some (2 ^ k') ∧ len + 1 ≤ 2 ^ k') ∨
      growBuf (2 ^ k) len = none ∧ 2 ^ 30 ≤ len := by
  unfold growBuf
  split
  · have hpos := Nat.two_pow_pos k
    rcases double_cap hk with ⟨hk', hdouble, hfit⟩ | hmax
    · rw [if_neg (by omega), hdouble]
      exact .inl ⟨k + 1, hk', rfl, by omega⟩
    · rw [hmax, if_pos (by decide)]
      exact .inr ⟨rfl, by omega⟩
  · exact .inl ⟨k, hk, rfl, by omega⟩

/-- A byte more belongs to the line that is open. -/
theorem length_lt_firstLine {buf : Str} (hbuf : '\n' ∉ buf) (c : Char) (rest : Str) :
    buf.length < (firstLine '\n' (buf ++ c :: rest)).length := by
  induction buf with
  | nil =>
    rw [List.nil_append, List.length_nil]
    exact List.length_pos_iff.mpr (firstLine_eq_nil_iff.not.mpr (List.cons_ne_nil _ _))
  | cons b buf ih =>
    obtain ⟨hb, hbuf⟩ := List.ne_and_not_mem_of_not_mem_cons hbuf
    rw [List.cons_append, firstLine_cons hb.symm]
    exact Nat.succ_lt_succ (ih hbuf)

/-- One call of `read` for a single byte. -/
theorem read_one {fd' : Reader Char} {c : Char} {p : Str}
    (h : fd.read 1 = (.data (c :: p), fd')) : fd.rest = c :: fd'.rest := by
  obtain ⟨hrest, hlen, -⟩ := Reader.read_data h
  have hp : p = [] := List.length_eq_zero_iff.mp (by rw [List.length_cons] at hlen; omega)
  rw [hrest, hp]
  rfl

/-- **The loop of `read_line_fd`** returns the line that is open, or nothing at
the end of the source; a line that is too long ends the shell. -/
theorem readLineLoop_spec (fd : Reader Char) (buf : Str) (cap : ℕ) (gotAny : Bool) (k : ℕ)
    (hcalm : fd.Calm) (hbuf : '\n' ∉ buf) (hk : k ≤ 30) (hcap : cap = 2 ^ k)
    (hle : buf.length ≤ cap) (hgot : gotAny = decide (buf ≠ [])) :
    (∃ fd', readLineLoop fd buf cap gotAny =
          some (firstLine '\n' (buf ++ fd.rest), decide (buf ++ fd.rest ≠ []), fd') ∧
        (firstLine '\n' (buf ++ fd.rest)).length ≤ 2 ^ 30 ∧
        linesIn fd'.rest = otherLines '\n' (buf ++ fd.rest) ∧ fd'.Calm ∧
        fd'.content = fd.content) ∨
      readLineLoop fd buf cap gotAny = none ∧
        2 ^ 30 < (firstLine '\n' (buf ++ fd.rest)).length := by
  fun_induction readLineLoop fd buf cap gotAny generalizing k with
  | case1 fd buf cap gotAny fd' hread ih =>
    obtain ⟨hrest, hcontent, -⟩ := Reader.read_eintr hread
    rw [← hrest, ← hcontent]
    exact ih k (hcalm.read hread).2 hbuf hk hcap hle hgot
  | case2 fd buf cap gotAny fd' hread => exact absurd rfl (hcalm.read hread).1
  | case3 fd buf cap gotAny fd' hread =>
    have hend := Reader.read_end (by decide) hread
    obtain ⟨hrest, -, hcontent⟩ := Reader.read_data hread
    have hrest' : fd'.rest = [] := by
      rw [hend] at hrest
      exact (List.append_eq_nil_iff.mp hrest.symm).2
    have hpow : 2 ^ k ≤ 2 ^ 30 := Nat.pow_le_pow_right (by decide) hk
    rw [hend, List.append_nil, hgot, firstLine, otherLines]
    refine .inl ⟨fd', ?_⟩
    rw [hrest']
    by_cases hnil : buf = []
    · subst hnil
      exact ⟨rfl, Nat.zero_le _, rfl, (hcalm.read hread).2, hcontent⟩
    · rw [linesOf_of_not_mem hbuf hnil]
      exact ⟨rfl, by simpa using (by omega : buf.length ≤ 2 ^ 30), rfl, (hcalm.read hread).2,
        hcontent⟩
  | case4 fd buf cap gotAny c p fd' hread hgrow =>
    rw [read_one hread]
    subst hcap
    rcases growBuf_spec hk hle with ⟨k', -, hsome, -⟩ | ⟨-, hfull⟩
    · rw [hgrow] at hsome
      cases hsome
    · exact .inr ⟨rfl, hfull.trans_lt (length_lt_firstLine hbuf c fd'.rest)⟩
  | case5 fd buf cap gotAny p fd' cap' hgrow hread =>
    have hlines := linesOf_append_sep (l := fd'.rest) hbuf
    subst hcap
    rcases growBuf_spec hk hle with ⟨k', hk', -, hle'⟩ | ⟨hnone, -⟩
    · have hpow : 2 ^ k' ≤ 2 ^ 30 := Nat.pow_le_pow_right (by decide) hk'
      rw [read_one hread, firstLine, otherLines, hlines]
      refine .inl ⟨fd', by simp, ?_, rfl, (hcalm.read hread).2, (Reader.read_data hread).2.2⟩
      rw [List.headD_cons, List.length_append, List.length_singleton]
      omega
    · rw [hgrow] at hnone
      cases hnone
  | case6 fd buf cap gotAny c p fd' hread cap' hgrow hc ih =>
    have happend : buf ++ fd.rest = (buf ++ [c]) ++ fd'.rest := by
      rw [read_one hread, List.append_assoc, List.singleton_append]
    have hc' : '\n' ∉ [c] := mt List.mem_singleton.mp (Ne.symm hc)
    subst hcap
    rcases growBuf_spec hk hle with ⟨k', hk', hsome, hle'⟩ | ⟨hnone, -⟩
    · rw [hgrow] at hsome
      rw [happend, ← (Reader.read_data hread).2.2]
      exact ih k' (hcalm.read hread).2 (List.not_mem_append hbuf hc') hk' (Option.some.inj hsome)
        (by rw [Option.some.inj hsome, List.length_append]; exact hle') (by simp)
    · rw [hgrow] at hnone
      cases hnone

/-- `read_line_fd` takes the first line off the source. -/
theorem readLineFd_spec (hcalm : fd.Calm) :
    (∃ fd', readLineFd fd = some (firstLine '\n' fd.rest, decide (fd.rest ≠ []), fd') ∧
        (firstLine '\n' fd.rest).length ≤ 2 ^ 30 ∧
        linesIn fd'.rest = otherLines '\n' fd.rest ∧ fd'.Calm ∧ fd'.content = fd.content) ∨
      readLineFd fd = none ∧ 2 ^ 30 < (firstLine '\n' fd.rest).length :=
  readLineLoop_spec fd [] 256 false 8 hcalm List.not_mem_nil (by decide) rfl (Nat.zero_le _) rfl

/-- What one call of `read_line_fd` has returned. -/
theorem of_readLineFd {fd' : Reader Char} {line : Str} {more : Bool} (hcalm : fd.Calm)
    (h : readLineFd fd = some (line, more, fd')) :
    (more = false → fd.rest = []) ∧ (more = true → linesIn fd.rest = line :: linesIn fd'.rest) ∧
      line.length ≤ 2 ^ 30 ∧ linesIn fd'.rest = otherLines '\n' fd.rest ∧ fd'.Calm ∧
      fd'.content = fd.content := by
  rcases readLineFd_spec hcalm with ⟨fd₁, hread, hlen, hrest, hcalm'⟩ | ⟨hnone, -⟩
  · rw [h] at hread
    simp only [Option.some.injEq, Prod.mk.injEq] at hread
    obtain ⟨rfl, rfl, rfl⟩ := hread
    refine ⟨?_, ?_, hlen, hrest, hcalm'⟩
    · intro hmore
      simpa using hmore
    · intro hmore
      rw [hrest]
      exact linesOf_eq_cons (by simpa using hmore)
  · rw [h] at hnone
    cases hnone

/-- **All the lines are collected, in the order they are read**, if they fit. -/
theorem bufferedLoop_spec (fd : Reader Char) (ll : PeekLineList) (hcalm : fd.Calm)
    (hll : ll.Sound) :
    (∃ ll' fd', bufferedLoop fd ll = some (ll', fd') ∧
        ll'.lines = ll.lines ++ (linesIn fd.rest).map fresh ∧
        fd'.rest = [] ∧ fd'.content = fd.content ∧ Fits ll.lines.length (linesIn fd.rest)) ∨
      bufferedLoop fd ll = none ∧ ¬ Fits ll.lines.length (linesIn fd.rest) := by
  fun_induction bufferedLoop fd ll with
  | case1 fd ll hnone =>
    -- the line does not fit into its buffer
    rcases readLineFd_spec hcalm with ⟨fd', hread, -⟩ | ⟨-, hlong⟩
    · rw [hnone] at hread
      cases hread
    · refine .inr ⟨rfl, fun hfits => ?_⟩
      have hne : fd.rest ≠ [] := by
        intro hnil
        rw [hnil] at hlong
        exact absurd hlong (by decide)
      exact absurd (hfits.1 _ (firstLine_mem hne)) (Nat.not_le.mpr hlong)
  | case2 fd ll line fd' hread =>
    obtain ⟨hnil, -, -, hrest, -, hcontent⟩ := of_readLineFd hcalm hread
    rw [hnil rfl] at hrest ⊢
    exact .inl ⟨ll, fd', rfl, by simp, linesOf_eq_nil_iff.mp hrest, hcontent, by simp [linesIn],
      hll.length_le⟩
  | case3 fd ll line fd' hread hpush =>
    -- there is no room for it in the list
    obtain ⟨-, hlines, -⟩ := of_readLineFd hcalm hread
    rw [hlines rfl]
    rcases push_spec hll line with ⟨ll', hsome, -⟩ | ⟨-, hfull⟩
    · rw [hpush] at hsome
      cases hsome
    · refine .inr ⟨rfl, fun hfits => ?_⟩
      have hle := hfits.2
      rw [List.length_cons] at hle
      omega
  | case4 fd ll line fd' hread ll' hpush ih =>
    obtain ⟨-, hlines, hlen, -, hcalm', hcontent⟩ := of_readLineFd hcalm hread
    rcases push_spec hll line with ⟨ll₁, hsome, hpushed, hll'⟩ | ⟨hnone, -⟩
    · rw [hpush] at hsome
      obtain rfl := Option.some.inj hsome
      have hcount : ll'.lines.length = ll.lines.length + 1 := by
        rw [hpushed, List.length_append, List.length_singleton]
      rw [hlines rfl, fits_cons, ← hcount]
      rcases ih hcalm' hll' with ⟨ll₂, fd₂, hloop, hlines₂, hend, hcontent₂, hfits⟩ | ⟨hnone, hnot⟩
      · refine .inl ⟨ll₂, fd₂, hloop, ?_, hend, hcontent₂.trans hcontent, hlen, hfits⟩
        rw [hlines₂, hpushed, List.append_assoc]
        rfl
      · exact .inr ⟨hnone, fun hfits => hnot hfits.2⟩
    · rw [hpush] at hnone
      cases hnone

/-- **The list of a source that is collected**, printed back to front. -/
theorem peekReverseBufferedFd_spec (ops : PeekOptions) (no : ℕ) (fd : Reader Char)
    (hcalm : fd.Calm) :
    (∃ ll fd', peekReverseBufferedFd fd peekLinelistInit no =
          ⟨ll, no + (linesIn fd.rest).countP peekLineIsNonempty, .ok, fd'⟩ ∧
        ll.lines.map (peekPrintLine ops) = listing ops no (linesIn fd.rest) ∧
        fd'.rest = [] ∧ fd'.content = fd.content ∧ Fits 0 (linesIn fd.rest)) ∨
      (peekReverseBufferedFd fd peekLinelistInit no).ending = .exited ∧
        ¬ Fits 0 (linesIn fd.rest) := by
  unfold peekReverseBufferedFd
  rcases bufferedLoop_spec fd peekLinelistInit hcalm sound_init with
    ⟨ll, fd', hloop, hlines, hend, hcontent, hfits⟩ | ⟨hloop, hnot⟩
  · have hfresh : ll.lines = (linesIn fd.rest).map fresh := by
      simpa [peekLinelistInit] using hlines
    obtain ⟨hprint, hno⟩ := assignNumbers_fresh ops (linesIn fd.rest) no
    refine .inl ⟨{ ll with lines := (assignNumbers ll.lines no).1 }, fd', ?_, ?_, hend, hcontent,
      hfits⟩
    · rw [hloop, ← hno, ← hfresh]
      rfl
    · rw [hfresh]
      exact hprint
  · rw [hloop]
    exact .inr ⟨rfl, hnot⟩

/-! ### Walking backwards -/

/-- **One chunk is filled** with the bytes at the offset. -/
theorem fillChunk_spec (n : ℕ) (fd : Reader Char) (chunk : Str) (hcalm : fd.Calm) :
    ∃ fd', fillChunk n fd chunk = some (chunk ++ fd.rest.take (n - chunk.length), fd') ∧
      fd'.Calm ∧ fd'.content = fd.content := by
  fun_induction fillChunk n fd chunk with
  | case1 fd chunk hlt fd' hread ih =>
    obtain ⟨hrest, hcontent, -⟩ := Reader.read_eintr hread
    rw [← hrest, ← hcontent]
    exact ih (hcalm.read hread).2
  | case2 fd chunk hlt fd' hread => exact absurd rfl (hcalm.read hread).1
  | case3 fd chunk hlt fd' hread =>
    have hend := Reader.read_end (by omega) hread
    refine ⟨fd', ?_, (hcalm.read hread).2, (Reader.read_data hread).2.2⟩
    rw [hend, List.take_nil, List.append_nil]
  | case4 fd chunk hlt c p fd' hread ih =>
    obtain ⟨hrest, hle, hcontent⟩ := Reader.read_data hread
    obtain ⟨fd'', hfill, hcalm', hcontent'⟩ := ih (hcalm.read hread).2
    refine ⟨fd'', ?_, hcalm', hcontent'.trans hcontent⟩
    rw [hfill, hrest, List.take_append, List.take_of_length_le hle, List.append_assoc,
      List.length_append, Nat.sub_add_eq]
  | case5 fd chunk hlt =>
    refine ⟨fd, ?_, hcalm, rfl⟩
    rw [Nat.sub_eq_zero_of_le (by omega), List.take_zero, List.append_nil]

/-- **One scan of a chunk.**  After the bytes `suffix` have been scanned, `seg` is
their first line and the others have been pushed, the last one first, unless they are
too many. -/
theorem scanBack_spec (before suffix : Str) (ll : PeekLineList) (hll : ll.Sound) :
    (∃ (ll' : PeekLineList) (pushed : List Str), scanBack before (firstLine '\n' suffix) ll =
          some (ll', firstLine '\n' (before.reverse ++ suffix)) ∧
        ll'.lines = ll.lines ++ pushed.map fresh ∧ ll'.Sound ∧
        otherLines '\n' (before.reverse ++ suffix) = pushed.reverse ++ otherLines '\n' suffix) ∨
      scanBack before (firstLine '\n' suffix) ll = none ∧
        2 ^ 30 + (otherLines '\n' suffix).length <
          ll.lines.length + (otherLines '\n' (before.reverse ++ suffix)).length := by
  induction before generalizing suffix ll with
  | nil => exact .inl ⟨ll, [], rfl, by simp, hll, rfl⟩
  | cons c before ih =>
    have hsplit : (c :: before).reverse ++ suffix = before.reverse ++ c :: suffix := by simp
    rw [hsplit]
    unfold scanBack
    by_cases hc : c = '\n'
    · subst hc
      rw [if_pos rfl, ← firstLine_sep_cons (l := suffix)]
      split
      · -- a line has ended: the scanned text was not empty
        rename_i hpos
        have hne : suffix ≠ [] := by
          rintro rfl
          cases hpos
        have hothers : otherLines '\n' ('\n' :: suffix) =
            firstLine '\n' suffix :: otherLines '\n' suffix := by
          rw [← linesOf_eq_cons hne]
          simp [otherLines]
        rcases push_spec hll (firstLine '\n' suffix) with
          ⟨ll₁, hpush, hlines₁, hll₁⟩ | ⟨hpush, hfull⟩
        · rw [hpush]
          rcases ih ('\n' :: suffix) ll₁ hll₁ with
            ⟨ll', pushed, hscan, hlines, hll', hrest⟩ | ⟨hscan, hmany⟩
          · refine .inl ⟨ll', firstLine '\n' suffix :: pushed, hscan, ?_, hll', ?_⟩
            · rw [hlines, hlines₁]
              simp
            · rw [hrest, hothers]
              simp
          · rw [hothers, hlines₁, List.length_append, List.length_cons, List.length_cons,
              List.length_nil] at hmany
            exact .inr ⟨hscan, by omega⟩
        · rw [hpush, otherLines_append, hothers, List.length_append, List.length_cons]
          exact .inr ⟨rfl, by omega⟩
      · rename_i hpos
        have hlen : (firstLine '\n' suffix).length = 0 := by omega
        have hnil : suffix = [] := firstLine_eq_nil_iff.mp (List.length_eq_zero_iff.mp hlen)
        subst hnil
        exact ih ['\n'] ll hll
    · rw [if_neg hc, ← firstLine_cons hc, ← otherLines_cons (l := suffix) hc]
      exact ih (c :: suffix) ll hll

variable {content : Str} {sk : Seeking}

/-- The lines after a cut are among the lines of the file. -/
theorem length_otherLines_drop_le (content : Str) (pos : ℕ) :
    (otherLines '\n' (content.drop pos)).length ≤ (otherLines '\n' content).length := by
  have h : otherLines '\n' (content.take pos ++ content.drop pos) = _ := otherLines_append _ _
  rw [List.take_append_drop] at h
  rw [h, List.length_append]
  exact Nat.le_add_left _ _

/-- What is carried over to the chunk before is a part of a line. -/
theorem length_firstLine_drop_le {n : ℕ} (hlen : ∀ line ∈ linesIn content, line.length ≤ n)
    (pos : ℕ) : (firstLine '\n' (content.drop pos)).length ≤ n := by
  by_cases hnil : content.drop pos = []
  · rw [hnil]
    exact Nat.zero_le _
  · obtain ⟨line, hmem, hle⟩ : ∃ line ∈ linesIn (content.take pos ++ content.drop pos), _ :=
      exists_length_firstLine_le _ hnil
    rw [List.take_append_drop] at hmem
    exact hle.trans (hlen line hmem)

theorem seekLoop_zero (sk : Seeking) (fd : Reader Char) (tail : Str) (ll : PeekLineList) :
    seekLoop sk fd 0 tail ll = (ll, .ok, fd) := by
  unfold seekLoop
  rfl

/-- The chunk before a position. -/
def chunkBefore (content : Str) (pos : ℕ) : Str :=
  (content.drop (pos - toRead pos)).take (toRead pos)

/-- The chunk before `pos` and the part of a line that goes on behind it fit an `int`. -/
def ChunkFits (content : Str) (pos : ℕ) : Prop :=
  (chunkBefore content pos).length + (firstLine '\n' (content.drop pos)).length ≤ intMax

/-- So it is with all chunks from `pos` back to the beginning. -/
def SeekFits (content : Str) (pos : ℕ) : Prop :=
  ∀ k, chunkSize * k < pos → ChunkFits content (pos - chunkSize * k)

theorem seekFits_iff {pos : ℕ} (hpos : 0 < pos) :
    SeekFits content pos ↔ ChunkFits content pos ∧
      (0 < pos - toRead pos → SeekFits content (pos - toRead pos)) := by
  have htoRead : 0 < pos - toRead pos → toRead pos = chunkSize := by
    unfold toRead
    split <;> omega
  constructor
  · intro h
    refine ⟨h 0 (by omega), ?_⟩
    intro hlt k hk
    rw [htoRead hlt] at hk ⊢
    rw [Nat.sub_sub, Nat.add_comm, ← Nat.mul_add_one]
    exact h (k + 1) (by rw [Nat.mul_add_one]; omega)
  · rintro ⟨hhere, hthere⟩ k hk
    cases k with
    | zero => exact hhere
    | succ k =>
      have hchunk : toRead pos = chunkSize := if_pos (by rw [Nat.mul_add_one] at hk; omega)
      rw [Nat.mul_add_one] at hk
      rw [hchunk] at hthere
      rw [Nat.mul_add_one, Nat.add_comm, ← Nat.sub_sub]
      exact hthere (by omega) k (by omega)

theorem seekFits_of_short (hlen : ∀ line ∈ linesIn content, line.length ≤ intMax - chunkSize)
    (pos : ℕ) : SeekFits content pos := by
  intro k _
  have hchunk : (chunkBefore content (pos - chunkSize * k)).length ≤ chunkSize := by
    refine (List.length_take_le _ _).trans ?_
    unfold toRead
    split <;> omega
  have hfirst := length_firstLine_drop_le hlen (pos - chunkSize * k)
  have hmax : chunkSize ≤ intMax := by decide
  unfold ChunkFits
  omega

/-- **One round of the walk backwards.**  If the bytes from `pos` on have been seen, so that
their first line is carried over and the others have been pushed, the last one first, then
the same holds of the bytes from the beginning of the chunk on, unless there are too many
lines. -/
theorem seekRound_spec {pos : ℕ} (hpos : pos ≤ size)
    (hcalm : fd.Calm) (hfd : fd.content.take size = content) (hll : ll.Sound)
    (hlines : ll.lines = (otherLines '\n' (content.drop pos)).reverse.map fresh) :
    ∃ fd', fillChunk (toRead pos) (fd.seek (pos - toRead pos)) [] =
        some (chunkBefore content pos, fd') ∧ fd'.Calm ∧ fd'.content.take size = content ∧
      ((∃ ll', scanBack (chunkBefore content pos ++ firstLine '\n' (content.drop pos)).reverse []
              ll = some (ll', firstLine '\n' (content.drop (pos - toRead pos))) ∧
          ll'.lines = (otherLines '\n' (content.drop (pos - toRead pos))).reverse.map fresh ∧
          ll'.Sound) ∨
        scanBack (chunkBefore content pos ++ firstLine '\n' (content.drop pos)).reverse [] ll =
            none ∧ 2 ^ 30 < (linesIn content).length) := by
  have hle := toRead_le pos
  obtain ⟨fd', hfill, hcalm', hcontent⟩ :=
    fillChunk_spec (toRead pos) (fd.seek (pos - toRead pos)) [] (hcalm.seek _)
  rw [Reader.seek_rest, List.nil_append, List.length_nil, Nat.sub_zero] at hfill
  have hchunk : (fd.content.drop (pos - toRead pos)).take (toRead pos) =
      chunkBefore content pos := by
    rw [chunkBefore, ← hfd, List.drop_take, List.take_take, Nat.min_eq_left (by omega)]
  rw [hchunk] at hfill
  refine ⟨fd', hfill, hcalm', by rw [hcontent, Reader.seek_content, hfd], ?_⟩
  -- the file from the beginning of the chunk on
  have hjoin : chunkBefore content pos ++ content.drop pos =
      content.drop (pos - toRead pos) := by
    have h := List.take_append_drop (toRead pos) (content.drop (pos - toRead pos))
    rwa [List.drop_drop, Nat.sub_add_cancel hle] at h
  have hfirst : firstLine '\n' (chunkBefore content pos ++ firstLine '\n' (content.drop pos)) =
      firstLine '\n' (content.drop (pos - toRead pos)) := by
    rw [← firstLine_append, hjoin]
  have hothers : otherLines '\n' (chunkBefore content pos ++ firstLine '\n' (content.drop pos)) ++
      otherLines '\n' (content.drop pos) =
        otherLines '\n' (content.drop (pos - toRead pos)) := by
    rw [← otherLines_append, hjoin]
  have hscan := scanBack_spec
    (chunkBefore content pos ++ firstLine '\n' (content.drop pos)).reverse [] ll hll
  rw [List.reverse_reverse, List.append_nil, firstLine_nil, hfirst, otherLines_nil] at hscan
  rcases hscan with ⟨ll', pushed, hscan, hlines', hll', hpushed⟩ | ⟨hscan, hmany⟩
  · refine .inl ⟨ll', hscan, ?_, hll'⟩
    rw [hlines', hlines, ← hothers, hpushed]
    simp
  · refine .inr ⟨hscan, ?_⟩
    have hdrop := length_otherLines_drop_le content (pos - toRead pos)
    have htail : (otherLines '\n' content).length ≤ (linesIn content).length := by
      unfold otherLines
      rw [List.length_tail]
      exact Nat.sub_le _ _
    rw [hlines, List.length_map, List.length_reverse, List.length_nil] at hmany
    rw [← hothers, List.length_append] at hdrop
    omega

/-- **The walk backwards**, from any position. -/
theorem seekLoop_spec (hset : sk.set = true) (pos : ℕ) (hpos : 0 < pos)
    (hle : pos ≤ size) (fd : Reader Char) (ll : PeekLineList) (hcalm : fd.Calm)
    (hfd : fd.content.take size = content) (hll : ll.Sound)
    (hlines : ll.lines = (otherLines '\n' (content.drop pos)).reverse.map fresh) :
    ∃ ll' fd',
      seekLoop sk fd pos (firstLine '\n' (content.drop pos)) ll = (ll', .ok, fd') ∧
          ll'.lines = (linesIn content).reverse.map fresh ∧ SeekFits content pos ∧
          (linesIn content).length ≤ 2 ^ 30 ∨
        seekLoop sk fd pos (firstLine '\n' (content.drop pos)) ll = (ll', .exited, fd') ∧
          ¬ (SeekFits content pos ∧ (linesIn content).length ≤ 2 ^ 30) := by
  induction pos using Nat.strong_induction_on generalizing fd ll with
  | _ pos ih =>
    obtain ⟨fd', hfill, hcalm', hcontent, hround⟩ := seekRound_spec hle hcalm hfd hll hlines
    rw [seekFits_iff hpos]
    unfold seekLoop
    simp only [hpos, hset, if_true, hfill]
    by_cases hfit : ChunkFits content pos
    · rw [if_neg (Nat.not_lt.mpr hfit)]
      rcases hround with ⟨ll', hscan, hall, hll'⟩ | ⟨hscan, hmany⟩
      · rw [hscan]
        by_cases hzero : pos - toRead pos = 0
        · -- the beginning of the file has been reached
          rw [hzero, List.drop_zero] at hall ⊢
          have hfits : ChunkFits content pos ∧ (0 < 0 → SeekFits content 0) :=
            ⟨hfit, fun h => absurd h (lt_irrefl 0)⟩
          by_cases hnil : content = []
          · subst hnil
            exact ⟨ll', fd', .inl ⟨seekLoop_zero _ _ _ _, hall, hfits, by decide⟩⟩
          · have hne : 0 < (firstLine '\n' content).length :=
              List.length_pos_iff.mpr (firstLine_eq_nil_iff.not.mpr hnil)
            have hcons : linesIn content = firstLine '\n' content :: otherLines '\n' content :=
              linesOf_eq_cons hnil
            have hcount := congrArg List.length hall
            rw [List.length_map, List.length_reverse] at hcount
            simp only [hne, if_true]
            rw [hcons, List.length_cons]
            rcases push_spec hll' (firstLine '\n' content) with
              ⟨ll'', hpush, hlines'', hll''⟩ | ⟨hpush, hfull⟩
            · have hroom := hll''.length_le
              rw [hlines'', List.length_append, List.length_singleton] at hroom
              rw [hpush]
              refine ⟨ll'', fd', .inl ⟨seekLoop_zero _ _ _ _, ?_, hfits, by omega⟩⟩
              rw [hlines'', hall]
              simp
            · rw [hpush]
              exact ⟨ll', fd', .inr ⟨rfl, by omega⟩⟩
        · simp only [hzero, if_false]
          have hpos' := Nat.pos_of_ne_zero hzero
          obtain ⟨ll'', fd'', hloop⟩ := ih (pos - toRead pos) (Nat.sub_lt hpos (toRead_pos hpos))
            hpos' ((Nat.sub_le _ _).trans hle) fd' ll' hcalm' hcontent hll' hall
          refine ⟨ll'', fd'', ?_⟩
          simpa only [hfit, hpos', true_and, true_imp_iff] using hloop
      · rw [hscan]
        exact ⟨ll, fd', .inr ⟨rfl, fun h => absurd h.2 (Nat.not_le.mpr hmany)⟩⟩
    · rw [if_pos (Nat.not_le.mp hfit)]
      exact ⟨ll, fd', .inr ⟨rfl, fun h => hfit h.1.1⟩⟩

/-- **The list of a file that is walked backwards**, printed front to back.  Nothing is
read behind the end that `lseek` has found. -/
theorem peekReverseSeekFd_spec (sk : Seeking) (ops : PeekOptions) (no : ℕ) (fd : Reader Char)
    (hset : sk.set = true) (hsize : sk.size = some size) (hcalm : fd.Calm)
    (hfd : fd.content.take size = content) :
    (∃ ll fd', peekReverseSeekFd sk fd peekLinelistInit no =
          ⟨ll, no + (linesIn content).countP peekLineIsNonempty, .ok, fd'⟩ ∧
        ll.lines.map (peekPrintLine ops) = (listing ops no (linesIn content)).reverse ∧
        SeekFits content size ∧ (linesIn content).length ≤ 2 ^ 30) ∨
      (peekReverseSeekFd sk fd peekLinelistInit no).ending = .exited ∧
        ¬ (SeekFits content size ∧ (linesIn content).length ≤ 2 ^ 30) := by
  unfold peekReverseSeekFd
  rw [hsize]
  cases size with
  | zero =>
    obtain rfl : content = [] := by rw [← hfd, List.take_zero]
    exact .inl ⟨peekLinelistInit, fd, rfl, rfl, fun _ h => absurd h (Nat.not_lt_zero _),
      by decide⟩
  | succ n =>
    have hdrop : content.drop (n + 1) = [] := by
      rw [← hfd]
      exact List.drop_eq_nil_of_le (List.length_take_le _ _)
    obtain ⟨ll, fd', hloop⟩ := seekLoop_spec hset (n + 1) (Nat.succ_pos n) (Nat.le_refl _)
      fd peekLinelistInit hcalm hfd sound_init (by rw [hdrop]; rfl)
    rw [hdrop, firstLine_nil] at hloop
    rcases hloop with ⟨hloop, hlines, hfits⟩ | ⟨hloop, hnot⟩
    · obtain ⟨hprint, hno⟩ := assignNumbers_fresh ops (linesIn content) no
      have hreverse : ll.lines.reverse = (linesIn content).map fresh := by
        rw [hlines, ← List.map_reverse, List.reverse_reverse]
      refine .inl ⟨{ ll with lines := (assignNumbers ll.lines.reverse no).1.reverse }, fd', ?_, ?_,
        hfits⟩
      · simp only [hloop]
        rw [← hno, ← hreverse]
        rfl
      · rw [← hprint, ← hreverse, List.map_reverse]
    · simp only [hloop]
      exact .inr ⟨trivial, hnot⟩

/-! ### The two readers -/

/-- What `lseek` says about a regular file. -/
def regular (content : Str) : Seeking := ⟨true, some content.length, true⟩

/-- **When backward reading agrees with buffered reading**: exactly if the source fits the
buffers. -/
theorem reverse_readers_agree (content : Str) (moods moods' : List Mood) (ops : PeekOptions)
    (no : ℕ) (hcalm : Mood.fail ∉ moods) (hcalm' : Mood.fail ∉ moods') :
    (let seek := peekReverseSeekFd (regular content) ⟨content, 0, moods⟩ peekLinelistInit no
      let buffered := peekReverseBufferedFd ⟨content, 0, moods'⟩ peekLinelistInit no
      seek.ending = .ok ∧ buffered.ending = .ok ∧
        seek.ll.lines.map (peekPrintLine ops) = (listing ops no (linesIn content)).reverse ∧
        buffered.ll.lines.reverse.map (peekPrintLine ops) =
          (listing ops no (linesIn content)).reverse ∧
        seek.runningNo = buffered.runningNo) ↔
      Fits 0 (linesIn content) := by
  rcases peekReverseBufferedFd_spec ops no ⟨content, 0, moods'⟩ hcalm' with
    ⟨ll', fd', hbuffered, hprint', -, -, hfits⟩ | ⟨hexit, hnot⟩
  · refine iff_of_true ?_ hfits
    have hshort : ∀ line ∈ linesIn content, line.length ≤ intMax - chunkSize :=
      fun line hmem => (hfits.1 line hmem).trans (by decide)
    have hseekFits := seekFits_of_short hshort content.length
    rcases peekReverseSeekFd_spec (regular content) ops no ⟨content, 0, moods⟩ rfl rfl hcalm
      List.take_length with ⟨ll, fd, hseek, hprint, -⟩ | ⟨-, hnot⟩
    · simp only [hseek, hbuffered, true_and]
      refine ⟨hprint, ?_, rfl⟩
      rw [List.map_reverse, hprint']
      rfl
    · exact absurd ⟨hseekFits, (Nat.zero_add _).symm.trans_le hfits.2⟩ hnot
  · refine iff_of_false ?_ hnot
    rintro ⟨-, hok, -⟩
    rw [hexit] at hok
    cases hok

/-- A file of three lines, the last one not ended. -/
theorem reverse_readers_agree_three :
    (peekReverseSeekFd (regular "a\n\nb".toList) ⟨"a\n\nb".toList, 0, [.eintr, .upTo 0]⟩
        peekLinelistInit 4).ll.lines.map (peekPrintLine ⟨true, true⟩) =
      [⟨6, "b".toList⟩, ⟨0, "\n".toList⟩, ⟨5, "a\n".toList⟩] ∧
    (peekReverseBufferedFd ⟨"a\n\nb".toList, 0, [.upTo 3]⟩ peekLinelistInit 4).ll.lines.reverse.map
        (peekPrintLine ⟨true, true⟩) =
      [⟨6, "b".toList⟩, ⟨0, "\n".toList⟩, ⟨5, "a\n".toList⟩] := by
  obtain ⟨-, -, hseek, hbuffered, -⟩ := (reverse_readers_agree "a\n\nb".toList [.eintr, .upTo 0]
    [.upTo 3] ⟨true, true⟩ 4 (by decide) (by decide)).mpr (by decide +kernel)
  exact ⟨hseek.trans (by decide +kernel), hbuffered.trans (by decide +kernel)⟩

/-! ### A line that only one of them can read -/

/-- A file that is one line, too long for a buffer but not for an `int` together with a
chunk. -/
theorem readers_of_line (no : ℕ) (hmem : '\n' ∉ content) (hlong : 2 ^ 30 < content.length)
    (hlen : content.length ≤ intMax - chunkSize) :
    (peekReverseSeekFd (regular content) ⟨content, 0, []⟩ peekLinelistInit no).ending = .ok ∧
    (peekReverseBufferedFd ⟨content, 0, []⟩ peekLinelistInit no).ending = .exited := by
  have hlines : linesIn content = [content] :=
    linesOf_of_not_mem hmem (List.ne_nil_of_length_pos (by omega))
  constructor
  · rcases peekReverseSeekFd_spec (regular content) ⟨false, true⟩ no ⟨content, 0, []⟩ rfl rfl
      List.not_mem_nil List.take_length with ⟨ll, fd, hseek, -⟩ | ⟨-, hnot⟩
    · rw [hseek]
    · refine absurd ⟨seekFits_of_short ?_ _, ?_⟩ hnot
      · rw [hlines]
        intro line h
        rw [List.mem_singleton.mp h]
        exact hlen
      · rw [hlines, List.length_singleton]
        decide
  · rcases peekReverseBufferedFd_spec ⟨false, true⟩ no ⟨content, 0, []⟩ List.not_mem_nil with
      ⟨-, -, -, -, -, -, hfits⟩ | ⟨hexit, -⟩
    · exact absurd (hfits.1 content (hlines ▸ List.mem_singleton_self _)) (Nat.not_le.mpr hlong)
    · exact hexit

/-- **A line of `2 ^ 30 + 1` bytes** is read backwards, but not collected: `cap`
cannot be doubled to `2 ^ 31`, and the shell exits. -/
theorem long_line_splits_readers :
    (peekReverseSeekFd (regular (List.replicate (2 ^ 30 + 1) 'a'))
      ⟨List.replicate (2 ^ 30 + 1) 'a', 0, []⟩ peekLinelistInit 0).ending = .ok ∧
    (peekReverseBufferedFd ⟨List.replicate (2 ^ 30 + 1) 'a', 0, []⟩ peekLinelistInit 0).ending =
      .exited := by
  apply readers_of_line
  · intro h
    exact absurd (List.eq_of_mem_replicate h) (by decide)
  · rw [List.length_replicate]
    exact Nat.lt_succ_self _
  · rw [List.length_replicate]
    decide

end Peek
end RuShell
