import RuShell.History.Model
import RuShell.Lib.Browse
import RuShell.Lib.Run

/-!
# What the line editor keeps

The arrays of `history_read_line` show a `Lib.Browser`: a text of the user's own at the
bottom of the history, and the lines of the history above it, cut to the array.  Every
`read` is a move of that browser or none at all, and the loop does not leave its arrays.
So the position stays inside of the history, and what was typed comes back at the bottom.

The end of the function does leave `buf`.  The loop lets the text grow to `bufsize - 1`
characters, which with its terminator fills the array, and the newline that is put behind
it then moves the terminator to `buf[bufsize]`.

## Main definitions

* `Shows` — the arrays hold what a browser says.
* `meaning` — the move that a `read` amounts to.
* `Editor.Full` — the loop has been left with a text that fills the array.
* `Browses`, `Restored` — steps away from the bottom, and what is back there.

## Main results

* `step_shows` — **the loop refines the browser**, and no step leaves an array.
* `line_editor_in_bounds` — **the function stays in its arrays unless the text fills
  `buf`**, its position in the history, and that the typed text comes back.
* `one_character_overruns` — a line that fills `buf` is written past its end.
-/

namespace RuShell
namespace History

open Lib (CArray Pointer Fault Spells Returns Browser Run)
open Lib.Browser (Move Remembers)
open JobNames (CStr)

variable {bufsize : ℕ} {hist : Hist} {prompt : CStr} {s s' : Editor bufsize}

/-! ### The browser behind the arrays -/

/-- The lines of the history as `buf` has room for them. -/
def Hist.entries (hist : Hist) (bufsize : ℕ) : List Str :=
  hist.lines.map fun l => l.val.take (bufsize - 1)

theorem Hist.count_eq (hist : Hist) (bufsize : ℕ) : hist.count = (hist.entries bufsize).length := by
  rw [Hist.count, Hist.entries, List.length_map]

theorem Hist.line_spells (hist : Hist) (bufsize : ℕ) {i : ℕ}
    (hi : i < (hist.entries bufsize).length) :
    ∃ p t, hist.line i = .ok p ∧ Spells nul p t ∧
      (hist.entries bufsize)[i] = t.take (bufsize - 1) := by
  have hi' : i < hist.lines.length := by rwa [Hist.entries, List.length_map] at hi
  refine ⟨_, hist.lines[i].val, ?_, Lib.spells_chars hist.lines[i].property, ?_⟩
  · rw [Hist.line, if_pos (Int.natCast_nonneg i), Int.toNat_natCast,
      List.getElem?_eq_getElem hi']
  · simp only [Hist.entries, List.getElem_map]

/-- The arrays hold the texts of the browser. -/
structure Shows (hist : Hist) (s : Editor bufsize) (b : Browser (hist.entries bufsize)) :
    Prop where
  buf : Spells nul s.buf.read b.shown
  len : s.len = b.shown.length
  pos : s.histPos = b.pos
  saved : Spells nul s.savedCurrent.read b.kept
  /-- What has been put aside fits into `buf`. -/
  fits : b.kept.length < bufsize

theorem Shows.histPos_eq_count {b : Browser (hist.entries bufsize)} (h : Shows hist s b) :
    s.histPos = hist.count ↔ b.pos = (hist.entries bufsize).length := by
  rw [h.pos, hist.count_eq bufsize, Int.natCast_inj]

/-- The keys of the main phase leave it, and a signal that is pending, alone. -/
structure Stays (s s' : Editor bufsize) : Prop where
  phase : s'.phase = s.phase
  gotSigint : s'.gotSigint = s.gotSigint

theorem Stays.refl (s : Editor bufsize) : Stays s s := ⟨rfl, rfl⟩

/-- A printable character at the end, if there is room for it. -/
def typed (bufsize : ℕ) (c : Char) (t : Str) : Str :=
  if t.length + 1 < bufsize then t ++ [c] else t

/-- What a byte does to the text. -/
def byteMeaning (bufsize : ℕ) (c : Char) : Option (Move Str) :=
  if c.toNat = 127 ∨ c.toNat = 8 then some (.edit List.dropLast)
  else if 32 ≤ c.toNat ∧ c.toNat < 127 then some (.edit (typed bufsize c))
  else none

/-- What a `read` at the beginning of the loop does to the text. -/
def mainMeaning (bufsize : ℕ) (gotSigint : Bool) (got : Got) : Option (Move Str) :=
  if gotSigint then some (.edit fun _ => [])
  else
    match got with
    | .byte c => byteMeaning bufsize c
    | _ => none

/-- The move that a `read` amounts to. -/
def meaning (s : Editor bufsize) (r : Read) : Option (Move Str) :=
  match s.phase, r.got with
  | .main, got => mainMeaning bufsize (s.gotSigint || r.sigint) got
  | .bracket, .byte c => if c = 'A' then some .up else if c = 'B' then some .down else none
  | _, _ => none

/-! ### The keys -/

section Keys

variable {b : Browser (hist.entries bufsize)}

theorem redrawLine_eq (prompt : CStr) {t : Str} (hbuf : Spells nul s.buf.read t)
    (hlen : s.len = t.length) :
    ∃ output, redrawLine prompt s = .ok { s with output } := by
  have hshown : (List.range s.len).mapM s.buf.read = .ok t := by
    rw [hlen]
    exact Lib.mapM_range_eq_ok hbuf.reads_text
  refine ⟨s.output ++ "\r\x1b[K".toList ++ prompt.val ++ [' '] ++ t, ?_⟩
  rw [redrawLine, hshown]
  rfl

/-- A line from the history, or the one that was put aside. -/
theorem load_shows {p : Pointer Char} {t : Str} {pos : ℤ} {saved : CArray lineSize Char}
    (hsize : 0 < bufsize) (hp : Spells nul p t) (hshown : b.shown = t.take (bufsize - 1))
    (hpos : pos = b.pos) (hsaved : Spells nul saved.read b.kept)
    (hfits : b.kept.length < bufsize) :
    Returns (load prompt { s with histPos := pos, savedCurrent := saved } p) fun s' =>
      Shows hist s' b ∧ Stays s s' := by
  rw [load]
  refine (Lib.strncpyCut_spells hp hsize).bind fun buf hbuf => ?_
  rw [← hshown] at hbuf
  rw [Lib.strlen_of_spells hbuf]
  obtain ⟨output, hdraw⟩ := redrawLine_eq prompt
    (s := { s with histPos := pos, savedCurrent := saved, buf, len := b.shown.length }) hbuf rfl
  exact ⟨_, hdraw, ⟨hbuf, rfl, hpos, hsaved, hfits⟩, rfl, rfl⟩

theorem backspace_shows (h : Shows hist s b) :
    Returns (backspace prompt s) fun s' =>
      Shows hist s' (b.move (.edit List.dropLast)) ∧ Stays s s' := by
  have hlen := h.len
  rw [backspace]
  split_ifs with hpos
  · refine (h.buf.cut (n := s.len - 1) (by omega)).bind fun buf hbuf => ?_
    have hdrop : b.shown.take (s.len - 1) = b.shown.dropLast := by
      rw [List.dropLast_eq_take, hlen]
    rw [hdrop] at hbuf
    have hlen' : s.len - 1 = b.shown.dropLast.length := by rw [List.length_dropLast, hlen]
    obtain ⟨output, hdraw⟩ :=
      redrawLine_eq prompt (s := { s with buf, len := s.len - 1 }) hbuf hlen'
    exact ⟨_, hdraw, ⟨hbuf, hlen', h.pos, h.saved, h.fits⟩, rfl, rfl⟩
  · -- there is nothing to erase
    have hnil : b.shown = [] := List.eq_nil_of_length_eq_zero (by omega)
    have hstay : b.move (.edit List.dropLast) = b := by
      rw [Browser.move, hnil, List.dropLast_nil, ← hnil]
    rw [hstay]
    exact .ok ⟨h, Stays.refl s⟩

theorem insert_shows (h : Shows hist s b) {c : Char} (hc : 32 ≤ c.toNat) :
    Returns (insert s c) fun s' =>
      Shows hist s' (b.move (.edit (typed bufsize c))) ∧ Stays s s' := by
  have hlen := h.len
  have hnul : c ≠ nul := by
    rintro rfl
    exact absurd hc (by decide)
  rw [insert]
  split_ifs with hroom
  · rw [hlen] at hroom ⊢
    have htyped : typed bufsize c b.shown = b.shown ++ [c] := if_pos hroom
    refine (h.buf.push hnul hroom).bind fun buf hbuf => ?_
    refine .ok ⟨⟨?_, ?_, h.pos, h.saved, h.fits⟩, rfl, rfl⟩
    · show Spells nul buf.read (typed bufsize c b.shown)
      rwa [htyped]
    · show b.shown.length + 1 = (typed bufsize c b.shown).length
      rw [htyped, List.length_append, List.length_singleton]
  · have hstay : b.move (.edit (typed bufsize c)) = b := by
      rw [Browser.move, typed, if_neg (by omega)]
    rw [hstay]
    exact .ok ⟨h, Stays.refl s⟩

/-- At the bottom the text is put aside.  `saved_current` has room for all of it. -/
theorem stash_saves (hhi : bufsize ≤ lineSize) (h : Shows hist s b) :
    Returns (stash hist s) fun s' => ∃ savedCurrent, s' = { s with savedCurrent } ∧
      Spells nul savedCurrent.read
        (if b.pos = (hist.entries bufsize).length then b.shown else b.kept) := by
  rw [stash]
  by_cases hpos : b.pos = (hist.entries bufsize).length
  · rw [if_pos (h.histPos_eq_count.mpr hpos), if_pos hpos]
    refine (Lib.strncpyCut_spells h.buf (by decide)).bind fun savedCurrent hsaved => ?_
    have hlt := h.buf.length_lt
    rw [List.take_of_length_le (by omega)] at hsaved
    exact .ok ⟨savedCurrent, rfl, hsaved⟩
  · rw [if_neg (mt h.histPos_eq_count.mp hpos), if_neg hpos]
    exact .ok ⟨s.savedCurrent, rfl, h.saved⟩

theorem arrowUp_shows (hhi : bufsize ≤ lineSize) (h : Shows hist s b) (prompt : CStr) :
    Returns (arrowUp hist prompt s) fun s' => Shows hist s' (b.move .up) ∧ Stays s s' := by
  have hle := b.pos_le
  have hlt := h.buf.length_lt
  have hcount := hist.count_eq bufsize
  rw [arrowUp]
  split_ifs with hempty
  · rw [Browser.move_up_of_top (by omega)]
    exact .ok ⟨h, Stays.refl s⟩
  refine (stash_saves hhi h).bind ?_
  rintro _ ⟨savedCurrent, rfl, hsaved⟩
  have hpos : s.histPos = b.pos := h.pos
  by_cases htop : b.pos = 0
  · -- the oldest line is shown already, which is not the bottom
    rw [if_neg (by omega)] at hsaved
    rw [Browser.move_up_of_top htop, if_neg (by simp only [hpos, htop]; decide)]
    exact .ok ⟨⟨h.buf, h.len, h.pos, hsaved, h.fits⟩, rfl, rfl⟩
  · obtain ⟨i, hi⟩ : ∃ i, b.pos = i + 1 := ⟨b.pos - 1, by omega⟩
    have hprev : s.histPos - 1 = (i : ℤ) := by omega
    obtain ⟨p, t, hline, hp, hentry⟩ := hist.line_spells bufsize (i := i) (by omega)
    have hmove : b.move .up = _ := dif_neg htop
    simp only [if_pos (show 0 < s.histPos by omega), hprev, hline, bind, Except.bind]
    rw [hmove]
    refine load_shows (by omega) hp ?_ ?_ hsaved ?_
    · simp only [hi, Nat.add_sub_cancel, hentry]
    · simp only [hi, Nat.add_sub_cancel]
    · show (if b.pos = (hist.entries bufsize).length then b.shown else b.kept).length < bufsize
      split_ifs
      · exact hlt
      · exact h.fits

theorem arrowDown_shows (h : Shows hist s b) (prompt : CStr) :
    Returns (arrowDown hist prompt s) fun s' => Shows hist s' (b.move .down) ∧ Stays s s' := by
  have hle := b.pos_le
  have hlt := h.buf.length_lt
  have hcount := hist.count_eq bufsize
  have hpos : s.histPos = b.pos := h.pos
  rw [arrowDown]
  by_cases hbottom : b.pos = (hist.entries bufsize).length
  · rw [Browser.move_down_of_bottom hbottom, if_neg (by omega)]
    exact .ok ⟨h, Stays.refl s⟩
  rw [if_pos (by omega)]
  by_cases hlast : b.pos + 1 = (hist.entries bufsize).length
  · -- back to what was put aside, which `buf` has room for
    have hmove : b.move .down = _ := (dif_neg (by omega)).trans (dif_pos (by omega))
    rw [if_pos (by omega), hmove]
    show Returns (load prompt { s with histPos := s.histPos + 1 } s.savedCurrent.read) _
    have hfits := h.fits
    refine load_shows (by omega) h.saved ?_ ?_ h.saved hfits
    · show b.kept = b.kept.take (bufsize - 1)
      rw [List.take_of_length_le (by omega)]
    · show s.histPos + 1 = ((b.pos + 1 : ℕ) : ℤ)
      omega
  · have hmove : b.move .down = _ := dif_pos (show b.pos + 1 < _ by omega)
    have hnext : s.histPos + 1 = ((b.pos + 1 : ℕ) : ℤ) := by omega
    obtain ⟨p, t, hline, hp, hentry⟩ := hist.line_spells bufsize (i := b.pos + 1) (by omega)
    rw [if_neg (by omega), hnext, hline, hmove]
    show Returns (load prompt { s with histPos := ((b.pos + 1 : ℕ) : ℤ) } p) _
    exact load_shows (by omega) hp hentry rfl h.saved h.fits

theorem mainByte_shows (h : Shows hist s b) (c : Char) :
    Returns (mainByte prompt s c) fun s' =>
      Shows hist s' ((byteMeaning bufsize c).elim b b.move) := by
  -- the codes that do not change the text
  have hnone (hdel : c.toNat ≠ 127) (hbs : c.toNat ≠ 8) (hctl : c.toNat < 32) :
      byteMeaning bufsize c = none := by
    rw [byteMeaning, if_neg (by omega), if_neg (by omega)]
  rw [mainByte]
  split_ifs with hnewline hend herase hesc hprint
  · have hcode : c.toNat = 10 ∨ c.toNat = 13 := by
      rcases hnewline with rfl | rfl
      · exact Or.inl rfl
      · exact Or.inr rfl
    rw [hnone (by omega) (by omega) (by omega)]
    exact .ok { h with }
  · rw [hnone (by omega) (by omega) (by omega)]
    exact .ok { h with }
  · rw [byteMeaning, if_pos herase]
    exact (backspace_shows h).mono fun s' hs' => hs'.1
  · rw [hnone (by omega) (by omega) (by omega)]
    exact .ok { h with }
  · rw [byteMeaning, if_neg herase, if_pos hprint]
    exact (insert_shows h hprint.1).mono fun s' hs' => hs'.1
  · rw [byteMeaning, if_neg herase, if_neg hprint]
    exact .ok h

theorem mainRead_shows (h : Shows hist s b) (got : Got) :
    Returns (mainRead prompt s got) fun s' =>
      Shows hist s' ((mainMeaning bufsize s.gotSigint got).elim b b.move) := by
  unfold mainRead mainMeaning
  split_ifs with hsig
  · refine (h.buf.cut (Nat.zero_le _)).bind fun buf hbuf => ?_
    rw [List.take_zero] at hbuf
    exact .ok ⟨hbuf, rfl, h.pos, h.saved, h.fits⟩
  · match got with
    | .byte c => exact mainByte_shows h c
    | .error true => exact .ok h
    | .eof => exact .ok { h with }
    | .error false => exact .ok { h with }

/-- **The loop refines the browser.**  What a `read` leads to stays inside of the arrays, and
the texts in them change by the move that the `read` amounts to. -/
theorem step_shows (hhi : bufsize ≤ lineSize) (h : Shows hist s b) (prompt : CStr) (r : Read) :
    Returns (step hist prompt s r) fun s' => Shows hist s' ((meaning s r).elim b b.move) := by
  obtain ⟨got, sigint⟩ := r
  have hmain : Shows hist { s with gotSigint := s.gotSigint || sigint, phase := .main } b :=
    { h with }
  cases hphase : s.phase with
  | main =>
    simp only [step, meaning, hphase]
    exact mainRead_shows hmain got
  | escape =>
    cases got with
    | byte c =>
      simp only [step, meaning, hphase]
      exact .ok { h with }
    | eof | error _ =>
      simp only [step, meaning, hphase]
      exact .ok hmain
  | bracket =>
    cases got with
    | byte c =>
      simp only [step, meaning, hphase]
      split_ifs
      · exact (arrowUp_shows hhi hmain prompt).mono fun s' hs' => hs'.1
      · exact (arrowDown_shows hmain prompt).mono fun s' hs' => hs'.1
      · exact .ok hmain
    | eof | error _ =>
      simp only [step, meaning, hphase]
      exact .ok hmain
  | left =>
    simp only [step, meaning, hphase]
    exact .ok { h with }

end Keys

/-! ### The loop -/

section Loop

variable {b : Browser (hist.entries bufsize)}

/-- The browser when the function is called. -/
def atBottom (hist : Hist) (bufsize : ℕ) : Browser (hist.entries bufsize) :=
  ⟨[], (hist.entries bufsize).length, [], le_rfl⟩

theorem start_shows (hlo : 2 ≤ bufsize) (hist : Hist) (buf : CArray bufsize Char) :
    Returns (start hist buf) fun s => Shows hist s (atBottom hist bufsize) := by
  have hempty {size : ℕ} (hsize : 0 < size) (b : CArray size Char) :
      Returns (b.write 0 nul) fun b' => Spells nul b'.read [] :=
    (Lib.Reads.write (l := []) Lib.reads_nil hsize nul).mono fun b' hb' =>
      ⟨List.not_mem_nil, hb'⟩
  refine (hempty (by decide) _).bind fun saved hsaved => ?_
  refine (hempty (by omega) buf).bind fun buf hbuf => ?_
  exact .ok ⟨hbuf, rfl, hist.count_eq bufsize, hsaved, by show 0 < bufsize; omega⟩

/-- **The loop on any `read`s** shows a browser when it waits or has been left. -/
theorem editLoop_shows (hhi : bufsize ≤ lineSize) (h : Shows hist s b) (reads : List Read) :
    Returns (editLoop hist prompt reads s) fun s' => ∃ b', Shows hist s' b' := by
  induction reads generalizing s b with
  | nil => exact .ok ⟨b, h⟩
  | cons r reads ih =>
    rw [editLoop]
    split_ifs
    · exact .ok ⟨b, h⟩
    · exact (step_shows hhi h prompt r).bind fun s' hs' => ih hs'

theorem edit_shows (hlo : 2 ≤ bufsize) (hhi : bufsize ≤ lineSize) (hist : Hist)
    (prompt : CStr) (buf : CArray bufsize Char) (reads : List Read) :
    Returns (edit hist prompt buf reads) fun s => ∃ b, Shows hist s b :=
  (start_shows hlo hist buf).bind fun _ hs => editLoop_shows hhi hs reads

theorem editLoop_of_left (hleft : s.phase = .left) (reads : List Read) :
    editLoop hist prompt reads s = .ok s := by
  cases reads with
  | nil => rfl
  | cons r reads => rw [editLoop, if_pos hleft]

theorem editLoop_append (reads reads' : List Read) :
    editLoop hist prompt (reads ++ reads') s =
      editLoop hist prompt reads s >>= editLoop hist prompt reads' := by
  induction reads generalizing s with
  | nil => rfl
  | cons r reads ih =>
    rw [List.cons_append, editLoop, editLoop]
    split_ifs with hleft
    · exact (editLoop_of_left hleft reads').symm
    · cases hstep : step hist prompt s r with
      | error e => rfl
      | ok t => exact ih

end Loop

/-! ### Back at the bottom -/

/-- A key, without a signal. -/
def key (c : Char) : Read := ⟨.byte c, false⟩

/-- The three bytes of an arrow. -/
def arrow (c : Char) : List Read := [key '\x1b', key '[', key c]

/-- The down arrow, `n` times. -/
def downs : ℕ → List Read
  | 0 => []
  | n + 1 => arrow 'B' ++ downs n

/-- A step of the loop that does not start at the bottom of the history. -/
def Browses (hist : Hist) (prompt : CStr) (s : Editor bufsize) (r : Read) (s' : Editor bufsize) :
    Prop :=
  s.phase ≠ .left ∧ s.histPos ≠ hist.count ∧ step hist prompt s r = .ok s'

/-- At the bottom, with the text that was in the buffer in the state `s₀`. -/
structure Restored (hist : Hist) (s₀ s : Editor bufsize) : Prop where
  histPos : s.histPos = hist.count
  text : Lib.text nul s.buf = Lib.text nul s₀.buf
  len : s.len = s₀.len

section Bottom

variable {s₀ s₁ s₂ : Editor bufsize} {b₀ b : Browser (hist.entries bufsize)} {a : Str}

theorem Shows.restored (h₀ : Shows hist s₀ b₀) (h : Shows hist s b)
    (hpos : b.pos = (hist.entries bufsize).length) (hshown : b.shown = b₀.shown) :
    Restored hist s₀ s := by
  refine ⟨h.histPos_eq_count.mpr hpos, ?_, ?_⟩
  · rw [Lib.text_of_spells h.buf, Lib.text_of_spells h₀.buf, hshown]
  · rw [h.len, h₀.len, hshown]

/-- The editor shows a browser that remembers a text. -/
def Keeps (hist : Hist) (a : Str) (s : Editor bufsize) : Prop :=
  ∃ b : Browser (hist.entries bufsize), Shows hist s b ∧ Remembers a b

/-- Up, pressed at the bottom. -/
theorem keeps_of_up (hhi : bufsize ≤ lineSize) (h₀ : Shows hist s₀ b₀)
    (hphase : s₀.phase = .bracket) (hpos : s₀.histPos = hist.count) {r : Read}
    (hr : r.got = .byte 'A') (hstep : step hist prompt s₀ r = .ok s₁) :
    Keeps hist b₀.shown s₁ := by
  have hmeaning : meaning s₀ r = some .up := by
    simp only [meaning, hphase, hr, if_true]
  obtain ⟨s, hs, hshows⟩ := step_shows hhi h₀ prompt r
  obtain rfl : s₁ = s := Except.ok.inj (hstep.symm.trans hs)
  rw [hmeaning] at hshows
  exact ⟨_, hshows, .up (h₀.histPos_eq_count.mp hpos)⟩

theorem Keeps.step (hhi : bufsize ≤ lineSize) {r : Read} (h : Keeps hist a s₁)
    (hstep : Browses hist prompt s₁ r s₂) : Keeps hist a s₂ := by
  obtain ⟨b, hb, hkeeps⟩ := h
  obtain ⟨-, hpos, hstep⟩ := hstep
  obtain ⟨s, hs, hshows⟩ := step_shows hhi hb prompt r
  obtain rfl : s₂ = s := Except.ok.inj (hstep.symm.trans hs)
  have hlt : b.pos < (hist.entries bufsize).length :=
    Nat.lt_of_le_of_ne b.pos_le (mt hb.histPos_eq_count.mpr hpos)
  refine ⟨_, hshows, ?_⟩
  cases meaning s₁ r with
  | none => exact hkeeps
  | some m => exact hkeeps.move hlt m

/-- **Browsing** keeps what was put aside. -/
theorem Keeps.run (hhi : bufsize ≤ lineSize) {keys : List Read} (h : Keeps hist a s₁)
    (hrun : Run (Browses hist prompt) s₁ keys s₂) : Keeps hist a s₂ :=
  hrun.invariant (fun _ _ _ ht hstep => Keeps.step hhi ht hstep) h

/-- An arrow is one step of the loop, once its first two bytes have been read. -/
theorem editLoop_arrow (hphase : s.phase = .main) (hsig : s.gotSigint = false) (c : Char) :
    editLoop hist prompt (arrow c) s =
      step hist prompt { s with phase := .bracket } (key c) >>= fun s' => .ok s' := by
  obtain ⟨buf, len, histPos, savedCurrent, gotEof, gotSigint, phase, output⟩ := s
  obtain rfl : phase = .main := hphase
  obtain rfl : gotSigint = false := hsig
  rfl

theorem editLoop_down (h : Shows hist s b) (hphase : s.phase = .main)
    (hsig : s.gotSigint = false) :
    Returns (editLoop hist prompt (arrow 'B') s) fun s' =>
      Shows hist s' (b.move .down) ∧ s'.phase = .main ∧ s'.gotSigint = false := by
  rw [editLoop_arrow hphase hsig]
  have hmain : Shows hist { s with gotSigint := s.gotSigint || false, phase := .main } b :=
    { h with }
  refine Returns.bind ?_ fun s' hs' => .ok hs'
  refine (arrowDown_shows hmain prompt).mono fun s' hs' => ?_
  refine ⟨hs'.1, hs'.2.phase, ?_⟩
  rw [hs'.2.gotSigint, hsig]
  rfl

/-- The down arrow `n` times is going down `n` times. -/
theorem editLoop_downs (h : Shows hist s b) (hphase : s.phase = .main)
    (hsig : s.gotSigint = false) (n : ℕ) :
    Returns (editLoop hist prompt (downs n) s) fun s' =>
      Shows hist s' ((fun b : Browser (hist.entries bufsize) => b.move .down)^[n] b) := by
  induction n generalizing s b with
  | zero => exact .ok h
  | succ n ih =>
    rw [downs, editLoop_append, Function.iterate_succ_apply]
    refine (editLoop_down h hphase hsig).bind fun s' hs' => ?_
    exact ih hs'.1 hs'.2.1 hs'.2.2

/-- **Down, until the bottom.** -/
theorem Keeps.downs (h₀ : Shows hist s₀ b₀) (h : Keeps hist b₀.shown s)
    (hphase : s.phase = .main) (hsig : s.gotSigint = false) :
    Returns (editLoop hist prompt (downs (hist.count - s.histPos).toNat) s)
      (Restored hist s₀) := by
  obtain ⟨b, hb, hkeeps⟩ := h
  refine (editLoop_downs hb hphase hsig _).mono fun s' hs' => ?_
  have hn : (hist.entries bufsize).length ≤ b.pos + (hist.count - s.histPos).toNat := by
    rw [hist.count_eq bufsize, hb.pos]
    omega
  obtain ⟨hpos, hshown⟩ := Browser.iterate_down hkeeps hn
  exact h₀.restored hs' hpos hshown

end Bottom

/-! ### The end of the function -/

/-- The loop has been left with a text that fills the array. -/
def Editor.Full (s : Editor bufsize) : Prop := s.phase = .left ∧ s.len + 1 = bufsize

/-- What the function returns for a text: nothing at the end of the input, and else the text
with a newline, which the history then has without it. -/
structure Returned (opens : Bool) (hist : Hist) (gotEof : Bool) (text : CStr)
    (answer : Answer bufsize) : Prop where
  null : answer.null = true ↔ gotEof = true ∧ text.val = []
  line : answer.null = false → Spells nul answer.buf.read (text.val ++ ['\n'])
  hist : answer.hist = historyAppend opens hist text

section Finish

variable {opens : Bool} {b : Browser (hist.entries bufsize)} {t : Str}

theorem argument_of_spells {size : ℕ} {p : CArray size Char} (hp : Spells nul p.read t) :
    argument p = .ok ⟨t, hp.noNul⟩ := by
  rw [argument, Lib.text_of_spells hp]
  exact dif_pos hp.noNul

theorem stripNewline_spells {tmp : CArray lineSize Char}
    (htmp : Spells nul tmp.read (t ++ ['\n'])) :
    Returns (stripNewline tmp) fun tmp' => Spells nul tmp'.read t := by
  have hlen : (t ++ ['\n']).length = t.length + 1 := by
    rw [List.length_append, List.length_singleton]
  have hlast : tmp.read t.length = .ok '\n' :=
    htmp.reads_text t.length '\n' List.getElem?_concat_length
  rw [stripNewline, Lib.strlen_of_spells htmp, hlen]
  show Returns (if 0 < t.length + 1 then tmp.read t.length >>= fun c =>
    if c = '\n' then tmp.write t.length nul else .ok tmp else .ok tmp) _
  rw [if_pos (Nat.succ_pos _), hlast]
  refine (htmp.cut (n := t.length) (by omega)).mono fun tmp' htmp' => ?_
  rwa [List.take_left] at htmp'

/-- The line goes to the history as it was typed: `tmp` has room for all of it. -/
theorem record_eq {buf : CArray bufsize Char} (hhi : bufsize ≤ lineSize) (ht : nul ∉ t)
    (hbuf : Spells nul buf.read (t ++ ['\n'])) :
    record opens hist buf = .ok (historyAppend opens hist ⟨t, ht⟩) := by
  have hlt := hbuf.length_lt
  obtain ⟨tmp, htmp, hspells⟩ :=
    Lib.strncpyCut_spells (b := (.blank : CArray lineSize Char)) hbuf (by decide)
  rw [List.take_of_length_le (by omega)] at hspells
  obtain ⟨tmp', hstrip, hspells'⟩ := stripNewline_spells hspells
  simp only [record, htmp, hstrip, argument_of_spells hspells', bind, Except.bind]

theorem finish_returned (hhi : bufsize ≤ lineSize) (opens : Bool) (h : Shows hist s b)
    (hroom : s.len + 1 < bufsize) :
    Returns (finish opens hist s)
      (Returned opens hist s.gotEof ⟨b.shown, h.buf.noNul⟩) := by
  have hlen := h.len
  have hnil : s.len = 0 ↔ b.shown = [] := by rw [hlen, List.length_eq_zero_iff]
  by_cases hnull : s.gotEof = true ∧ s.len = 0
  · have hshown : b.shown = [] := hnil.mp hnull.2
    rw [finish, if_pos hnull]
    exact .ok ⟨⟨fun _ => ⟨hnull.1, hshown⟩, fun _ => rfl⟩, nofun, (if_pos hshown).symm⟩
  rw [finish, if_neg hnull]
  rw [hnil] at hnull
  rw [hlen] at hroom ⊢
  refine (h.buf.push (c := '\n') (by decide) hroom).bind fun buf hbuf => ?_
  have hreturned : Returned opens hist s.gotEof ⟨b.shown, h.buf.noNul⟩
      ⟨false, buf, historyAppend opens hist ⟨b.shown, h.buf.noNul⟩⟩ :=
    ⟨⟨nofun, fun hn => absurd hn hnull⟩, fun _ => hbuf, rfl⟩
  by_cases hpos : 1 < b.shown.length + 1
  · rw [if_pos hpos, record_eq hhi h.buf.noNul hbuf]
    exact .ok hreturned
  · -- an empty line is not recorded, and `history_append` would leave it out as well
    have hshown : b.shown = [] := List.eq_nil_of_length_eq_zero (by omega)
    have hskip : historyAppend opens hist ⟨b.shown, h.buf.noNul⟩ = hist := if_pos hshown
    rw [hskip] at hreturned
    rw [if_neg hpos]
    exact .ok hreturned

/-- The terminator behind the newline of a text that fills the array. -/
theorem finish_of_full (hlo : 2 ≤ bufsize) (hfull : s.len + 1 = bufsize) :
    finish opens hist s = .error .outOfRange := by
  rw [finish, if_neg (by omega)]
  obtain ⟨buf, hbuf, -⟩ := Lib.write_of_lt (show s.len < bufsize by omega) s.buf '\n'
  rw [hbuf]
  show (buf.write (s.len + 1) nul >>= _) = _
  rw [Lib.write_of_le (by omega)]
  rfl

/-- Without a terminal the array has room for what `fgets` takes. -/
theorem fgets_returns (hlo : 2 ≤ bufsize) (hist : Hist) (buf : CArray bufsize Char)
    (stdin : Lib.File Char) : Returns (fgets hist buf stdin) fun answer => answer.hist = hist := by
  have htaken := Lib.File.fgets_taken_length '\n' bufsize stdin
  have hfailed (l : Str) (hl : l.length ≤ bufsize - 1) :
      Returns (Lib.memcpy buf (Lib.chars nul l) l.length) fun _ => True := by
    have hreads := (Lib.reads_chars nul l).of_isPrefix (List.prefix_append l [nul])
    exact (Lib.memcpy_reads hreads (by omega)).mono fun _ _ => trivial
  unfold fgets
  cases hget : (Lib.File.fgets '\n' bufsize stdin).1 with
  | line l =>
    rw [hget] at htaken
    have hlen : (l ++ [nul]).length = l.length + 1 := by
      rw [List.length_append, List.length_singleton]
    have hl : l.length ≤ bufsize - 1 := htaken
    have hcopy := Lib.memcpy_reads (b := buf) (Lib.reads_chars nul l) (by omega)
    rw [hlen] at hcopy
    exact hcopy.bind fun buf' _ => .ok rfl
  | eof | eintr _ | fail _ =>
    rw [hget] at htaken
    exact (hfailed _ htaken).bind fun buf' _ => .ok rfl

end Finish

/-! ### The function -/

section ReadLine

variable {opens : Bool} {buf : CArray bufsize Char} {reads : List Read}

theorem historyReadLine_of_waiting (hedit : edit hist prompt buf reads = .ok s)
    (hphase : s.phase ≠ .left) :
    historyReadLine opens hist prompt buf (.terminal reads) = .ok none := by
  rw [historyReadLine, hedit]
  exact if_neg hphase

theorem historyReadLine_of_left (hedit : edit hist prompt buf reads = .ok s)
    (hphase : s.phase = .left) :
    historyReadLine opens hist prompt buf (.terminal reads) =
      finish opens hist s >>= fun answer => .ok (some answer) := by
  rw [historyReadLine, hedit]
  exact if_pos hphase

/-- **The line editor stays in its buffer as long as the text does not fill it, and restores
the typed line.**  For any history and any `read`s the loop does not leave its arrays, its
position stays in the history, and the function returns unless the text has `bufsize - 1`
characters when the loop is left; then the terminator is written to `buf[bufsize]`.

After Up has been pressed at the bottom, in the state `s₀`, the text that was in the buffer is
back as soon as the bottom is reached again, which pressing Down leads to. -/
theorem line_editor_in_bounds (hlo : 2 ≤ bufsize) (hhi : bufsize ≤ 4096) (opens : Bool)
    (hist : Hist) (prompt : CStr) (buf : CArray bufsize Char) :
    (∀ reads, Returns (edit hist prompt buf reads) fun s =>
      (0 ≤ s.histPos ∧ s.histPos ≤ hist.count) ∧
      ∃ text : CStr, Spells nul s.buf.read text.val ∧ s.len = text.val.length ∧
        (s.phase ≠ .left →
          historyReadLine opens hist prompt buf (.terminal reads) = .ok none) ∧
        (s.phase = .left → ¬ s.Full →
          ∃ answer, historyReadLine opens hist prompt buf (.terminal reads) = .ok (some answer) ∧
            Returned opens hist s.gotEof text answer) ∧
        (s.Full →
          historyReadLine opens hist prompt buf (.terminal reads) = .error .outOfRange)) ∧
    (∀ stdin, ∃ answer,
      historyReadLine opens hist prompt buf (.other stdin) = .ok (some answer)) ∧
    ∀ before s₀ r s₁ keys s₂, edit hist prompt buf before = .ok s₀ → s₀.phase = .bracket →
      s₀.histPos = hist.count → r.got = .byte 'A' → step hist prompt s₀ r = .ok s₁ →
      Run (Browses hist prompt) s₁ keys s₂ →
      (s₂.histPos = hist.count → Restored hist s₀ s₂) ∧
      (s₂.phase = .main → s₂.gotSigint = false →
        Returns (editLoop hist prompt (downs (hist.count - s₂.histPos).toNat) s₂)
          (Restored hist s₀)) := by
  have hshows := edit_shows hlo hhi hist prompt buf
  refine ⟨fun reads => ?_, fun stdin => ?_, ?_⟩
  · obtain ⟨s, hedit, b, hb⟩ := hshows reads
    have hlt := hb.buf.length_lt
    have hlen := hb.len
    refine ⟨s, hedit, ⟨?_, ?_⟩, ⟨b.shown, hb.buf.noNul⟩, hb.buf, hb.len, ?_, ?_, ?_⟩
    · rw [hb.pos]
      exact Int.natCast_nonneg _
    · rw [hb.pos, hist.count_eq bufsize]
      exact Int.ofNat_le.mpr b.pos_le
    · exact historyReadLine_of_waiting hedit
    · intro hleft hroom
      have hroom : s.len + 1 < bufsize := by
        have hne : s.len + 1 ≠ bufsize := fun heq => hroom ⟨hleft, heq⟩
        omega
      obtain ⟨answer, hfinish, hreturned⟩ := finish_returned hhi opens hb hroom
      refine ⟨answer, ?_, hreturned⟩
      rw [historyReadLine_of_left hedit hleft, hfinish]
      rfl
    · rintro ⟨hleft, hfull⟩
      rw [historyReadLine_of_left hedit hleft, finish_of_full hlo hfull]
      rfl
  · obtain ⟨answer, hanswer, -⟩ := fgets_returns hlo hist buf stdin
    refine ⟨answer, ?_⟩
    rw [historyReadLine, hanswer]
    rfl
  · intro before s₀ r s₁ keys s₂ hedit hphase hpos hr hstep hrun
    obtain ⟨s, hs, b₀, h₀⟩ := hshows before
    obtain rfl : s₀ = s := Except.ok.inj (hedit.symm.trans hs)
    have hkeeps : Keeps hist b₀.shown s₂ :=
      (keeps_of_up hhi h₀ hphase hpos hr hstep).run hhi hrun
    refine ⟨fun hbottom => ?_, fun hmain hsig => hkeeps.downs h₀ hmain hsig⟩
    obtain ⟨b, hb, hremembers⟩ := hkeeps
    have hbpos := hb.histPos_eq_count.mp hbottom
    exact h₀.restored hb hbpos (hremembers.bottom hbpos)

/-- One line in the history. -/
def pwdHist : Hist := ⟨[⟨"pwd".toList, by decide⟩], by decide, "pwd\n".toList⟩

/-- A prompt. -/
def shellPrompt : CStr := ⟨">".toList, by decide⟩

/-- The line `a` in an array of eight characters; and `a`, Up and then Down. -/
theorem line_editor_in_bounds_eight :
    (∃ answer, historyReadLine true pwdHist shellPrompt (.blank : CArray 8 Char)
        (.terminal [key 'a', key '\n']) = .ok (some answer) ∧
      answer.null = false ∧ Spells nul answer.buf.read "a\n".toList) ∧
    ∃ s₀ s₁, edit pwdHist shellPrompt (.blank : CArray 8 Char) [key 'a', key '\x1b', key '['] =
        .ok s₀ ∧
      Lib.text nul s₀.buf = .ok "a".toList ∧ step pwdHist shellPrompt s₀ (key 'A') = .ok s₁ ∧
      s₁.histPos = 0 ∧
      Returns (editLoop pwdHist shellPrompt (downs 1) s₁) (Restored pwdHist s₀) := by
  have hclaim := line_editor_in_bounds (by decide) (by decide) true pwdHist shellPrompt
    (.blank : CArray 8 Char)
  constructor
  · obtain ⟨s, hs, -, text, hspells, hlen, -, hleft, -⟩ := hclaim.1 [key 'a', key '\n']
    obtain ⟨answer, hanswer, hreturned⟩ := hleft
      (by cases hs; rfl) (by cases hs; rintro ⟨-, hfull⟩; exact absurd hfull (by decide))
    have htext : text.val = "a".toList := by
      cases hs
      exact (Except.ok.inj (Lib.text_of_spells hspells)).symm
    have hnull : answer.null = false := by
      rw [Bool.eq_false_iff, ne_eq, hreturned.null, htext]
      exact fun hn => absurd hn.2 (by decide)
    refine ⟨answer, hanswer, hnull, ?_⟩
    have hline := hreturned.line hnull
    rwa [htext] at hline
  · obtain ⟨s₀, hs₀, b₀, h₀⟩ := edit_shows (by decide) (by decide) pwdHist shellPrompt
      (.blank : CArray 8 Char) [key 'a', key '\x1b', key '[']
    obtain ⟨s₁, hs₁, h₁, hstays⟩ :=
      arrowUp_shows (s := { s₀ with phase := .main }) (by decide) { h₀ with } shellPrompt
    have hpos₀ : b₀.pos = 1 := by
      have hpos := h₀.pos
      cases hs₀
      exact (Int.ofNat.inj hpos).symm
    have hpos₁ : s₁.histPos = 0 := by
      rw [h₁.pos, Browser.move, dif_neg (by omega)]
      simp only [hpos₀]
      rfl
    have hstep : step pwdHist shellPrompt s₀ (key 'A') = .ok s₁ := by
      cases hs₀
      exact hs₁
    have hdown := (hclaim.2.2 _ s₀ (key 'A') s₁ [] s₁ hs₀ (by cases hs₀; rfl) (by cases hs₀; rfl)
      rfl hstep (.nil s₁)).2 hstays.phase (by rw [hstays.gotSigint]; cases hs₀; rfl)
    rw [hpos₁] at hdown
    exact ⟨s₀, s₁, hs₀, by cases hs₀; rfl, hstep, hpos₁, hdown⟩

/-- One character fills an array of two; with the newline behind it the terminator is
written past the end. -/
theorem one_character_overruns :
    historyReadLine true pwdHist shellPrompt (.blank : CArray 2 Char)
      (.terminal [key 'a', key '\n']) = .error .outOfRange := rfl

end ReadLine

end History
end RuShell
