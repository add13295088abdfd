import RuShell.Hop.Model

/-!
# The history of `hop` across sessions

`save_history` writes one line for each directory, `path<TAB>freq<TAB>last_visit`,
without escaping anything, and `load_history` reads lines of at most 4095 bytes
and takes the path up to the first tab.  So the entries come back unless a path
has a tab or a newline in it, or a line is too long.  Every line that is read
becomes the new head of the list, so they come back in reverse order; a query
takes the first of several entries with the same score, and may find another
directory after a restart.

## Main definitions

* `HopNode.Plain` — an entry that its line can be read back from.
* `restored` — what is read back from a line.
* `IsBest`, `IsFirstBest` — an entry with the highest score among those that match.

## Main results

* `restored_of_plain`, `length_of_restored` — one line.
* `loadHistory_saveHistory` — the whole file, in reverse order.
* `history_round_trips` — **the same entries after a restart**, exactly if all are plain.
* `tab_in_path_lost` — a directory with a tab in its name.
* `best_match_survives` — **the same answer after a restart**, exactly if the first and
  the last entry with the highest score agree.
* `tie_changes_answer` — two directories visited in the same second.
-/

namespace RuShell
namespace Hop

open Lib

/-! ### One entry -/

/-- An entry that its line can be read back from.  The newline may be cut off. -/
structure HopNode.Plain (n : HopNode) : Prop where
  no_tab : '\t' ∉ n.path
  no_newline : '\n' ∉ n.path
  fits : (formatNode n).length ≤ stringSize

instance (n : HopNode) : Decidable n.Plain :=
  decidable_of_iff ('\t' ∉ n.path ∧ '\n' ∉ n.path ∧ (formatNode n).length ≤ stringSize)
    ⟨fun h => ⟨h.1, h.2.1, h.2.2⟩, fun h => ⟨h.1, h.2, h.3⟩⟩

/-- What holds of every entry that `hop` makes or reads. -/
structure HopNode.Sound (n : HopNode) : Prop where
  ne_nil : n.path ≠ []
  nul_free : nul ∉ n.path
  short : n.path.length ≤ stringSize - 1

theorem scanInt_dropWhile (s : Str) : scanInt (s.dropWhile isspace) = scanInt s := by
  unfold scanInt
  rw [List.dropWhile_idempotent]

theorem scanInt_tab (s : Str) : scanInt ('\t' :: s) = scanInt s := by
  unfold scanInt
  rw [List.dropWhile_cons_of_pos (by decide)]

theorem clampLong_of_mem {z : ℤ} (hl : -2 ^ 63 ≤ z) (hu : z < 2 ^ 63) : clampLong z = z := by
  unfold clampLong
  omega

theorem clampLong_int32 (x : Int32) : clampLong x.toInt = x.toInt := by
  have hl := x.le_toInt
  have hu := x.toInt_lt
  exact clampLong_of_mem (by omega) (by omega)

theorem clampLong_int64 (x : Int64) : clampLong x.toInt = x.toInt :=
  clampLong_of_mem x.le_toInt x.toInt_lt

/-- A number is not longer for being clamped. -/
theorem length_decimal_clampLong (z : ℤ) :
    (decimal (clampLong z)).length ≤ (decimal z).length := by
  unfold clampLong
  apply length_decimal_mono
  · omega
  · omega

/-- The path of a line is what comes before its first tab. -/
theorem scanNode_append {path : Str} (t : Str) (hne : path ≠ []) (htab : '\t' ∉ path)
    (hlen : path.length ≤ stringSize - 1) :
    scanNode (path ++ '\t' :: t) =
      (scanInt t).bind fun f => (scanInt f.2).map fun l =>
        ⟨path, Int32.ofInt (clampLong f.1), Int64.ofInt (clampLong l.1)⟩ := by
  have htake : ((path ++ '\t' :: t).takeWhile (· ≠ '\t')).take (stringSize - 1) = path := by
    have hpath : ∀ c ∈ path, decide (c ≠ '\t') = true :=
      fun c hc => decide_eq_true fun h => htab (h ▸ hc)
    rw [List.takeWhile_append_of_pos hpath, List.takeWhile_cons_of_neg (by simp),
      List.append_nil, List.take_of_length_le hlen]
  have hdrop : (path ++ '\t' :: t).drop path.length = '\t' :: t := List.drop_left
  unfold scanNode
  simp only [htake, hne, if_false, hdrop, scanInt_dropWhile, scanInt_tab]
  cases scanInt t with
  | none => rfl
  | some f =>
    simp only [Option.bind_some]
    cases scanInt f.2 with
    | none | some l => rfl

/-- A line without a tab is no entry. -/
theorem scanNode_of_no_tab {line : Str} (htab : '\t' ∉ line) (hlen : line.length ≤ stringSize - 1) :
    scanNode line = none := by
  have htake : (line.takeWhile (· ≠ '\t')).take (stringSize - 1) = line := by
    have hall : ∀ c ∈ line, decide (c ≠ '\t') = true :=
      fun c hc => decide_eq_true fun h => htab (h ▸ hc)
    rw [List.takeWhile_eq_self_iff.mpr hall, List.take_of_length_le hlen]
  unfold scanNode
  simp only [htake, List.drop_length]
  split
  · rfl
  · rfl

/-- The numbers behind the path. -/
def numbersOf (n : HopNode) : Str :=
  decimal n.freq.toInt ++ '\t' :: (decimal n.lastVisit.toInt ++ ['\n'])

theorem formatNode_eq (n : HopNode) : formatNode n = n.path ++ '\t' :: numbersOf n := rfl

theorem length_numbersOf_le (n : HopNode) : (numbersOf n).length ≤ 33 := by
  have hfreq : (decimal n.freq.toInt).length ≤ 11 := by
    have hl := n.freq.le_toInt
    have hu := n.freq.toInt_lt
    have := length_decimal_le (z := n.freq.toInt) (k := 10) (by decide) (by omega)
    split at this <;> omega
  have hvisit : (decimal n.lastVisit.toInt).length ≤ 20 := by
    have hl := n.lastVisit.le_toInt
    have hu := n.lastVisit.toInt_lt
    have := length_decimal_le (z := n.lastVisit.toInt) (k := 19) (by decide) (by omega)
    split at this <;> omega
  simp only [numbersOf, List.length_append, List.length_cons, List.length_nil]
  omega

theorem not_mem_decimal {c : Char} (z : ℤ) (hc : c.isDigit = false) (hminus : c ≠ '-') :
    c ∉ decimal z := by
  have hdigits : c ∉ Nat.toDigits 10 z.natAbs := by
    intro h
    rw [isDigit_of_mem_toDigits h] at hc
    cases hc
  unfold decimal
  split
  · exact List.not_mem_cons_of_ne_of_not_mem hminus hdigits
  · exact hdigits

theorem noDigit_cons {c : Char} (hc : c.isDigit = false) (s : Str) : NoDigit (c :: s) := by
  rintro d hd
  rw [← Option.some.inj hd, hc]

theorem scanInt_decimal_tab (z : ℤ) (s : Str) :
    scanInt (decimal z ++ '\t' :: s) = some (z, '\t' :: s) :=
  scanInt_decimal z (noDigit_cons rfl s)

/-- What is read back from the first call of `fgets` for the line of an entry. -/
def restored (n : HopNode) : Option HopNode := scanNode ((formatNode n).take (stringSize - 1))

variable {n : HopNode} {directoryExists : Str → Bool} {name : Str}

/-- **One line is read back**, also without its newline. -/
theorem restored_of_plain (hn : n.Sound) (hp : n.Plain) : restored n = some n := by
  obtain ⟨e, he, htake⟩ : ∃ e, NoDigit e ∧ (formatNode n).take (stringSize - 1) =
      n.path ++ '\t' :: (decimal n.freq.toInt ++ '\t' :: (decimal n.lastVisit.toInt ++ e)) := by
    have hfits := hp.fits
    rcases Nat.lt_or_eq_of_le hfits with hlt | heq
    · exact ⟨['\n'], noDigit_cons rfl [], List.take_of_length_le (by omega)⟩
    · refine ⟨[], nofun, ?_⟩
      have hline : formatNode n = (n.path ++ '\t' :: (decimal n.freq.toInt ++
          '\t' :: decimal n.lastVisit.toInt)) ++ ['\n'] := by simp [formatNode]
      rw [hline, List.length_append, List.length_singleton] at heq
      rw [hline, List.take_left' (by omega), List.append_nil]
  rw [restored, htake, scanNode_append _ hn.ne_nil hp.no_tab hn.short]
  simp only [scanInt_decimal_tab, Option.bind_some, scanInt_tab, scanInt_decimal _ he,
    Option.map_some, clampLong_int32, clampLong_int64, Int32.ofInt_toInt, Int64.ofInt_toInt]

/-- What is read back from a line, whole or cut short, has a line that is not too long. -/
theorem length_of_restored {m : HopNode} (hn : n.Sound) (htab : '\t' ∉ n.path)
    (h : restored n = some m) : (formatNode m).length ≤ stringSize := by
  have hshort := hn.short
  rw [restored, formatNode_eq, List.take_append, List.take_of_length_le hshort] at h
  cases hk : stringSize - 1 - n.path.length with
  | zero =>
    rw [hk, List.take_zero, List.append_nil, scanNode_of_no_tab htab hshort] at h
    cases h
  | succ j =>
    rw [hk, List.take_succ_cons, scanNode_append _ hn.ne_nil htab hshort, numbersOf,
      List.take_append] at h
    cases hj : j - (decimal n.freq.toInt).length with
    | zero =>
      -- the line ends in the first number
      rw [hj, List.take_zero, List.append_nil] at h
      obtain ⟨x, hx, h⟩ := Option.bind_eq_some_iff.mp h
      rw [scanInt_take_decimal hx] at h
      cases h
    | succ i =>
      rw [hj, List.take_succ_cons, List.take_of_length_le (by omega), scanInt_decimal_tab,
        Option.bind_some, scanInt_tab] at h
      obtain ⟨x, hx, rfl⟩ := Option.map_eq_some_iff.mp h
      have hlen := (length_decimal_of_scanInt hx).trans (List.length_take_le _ _)
      have hclamp := length_decimal_clampLong x.1
      have hlong : (Int64.ofInt (clampLong x.1)).toInt = clampLong x.1 := by
        apply Int64.toInt_ofInt_of_le <;> unfold clampLong <;> omega
      simp only [formatNode, List.length_append, List.length_cons, List.length_nil,
        clampLong_int32, Int32.ofInt_toInt, hlong]
      omega

/-- What is left of a line that is too long is no entry. -/
theorem scanNode_remainder (hn : n.Sound) :
    scanNode ((formatNode n).drop (stringSize - 1)) = none := by
  have hempty : ∀ t, scanNode ('\t' :: t) = none := fun t => rfl
  rw [formatNode_eq, List.drop_append, List.drop_of_length_le hn.short, List.nil_append]
  cases stringSize - 1 - n.path.length with
  | zero => exact hempty _
  | succ j =>
    have hlen := length_numbersOf_le n
    rw [numbersOf, List.length_append] at hlen
    rw [List.drop_succ_cons, numbersOf, List.drop_append]
    cases hj : j - (decimal n.freq.toInt).length with
    | zero =>
      rw [List.drop_zero]
      by_cases hnil : (decimal n.freq.toInt).drop j = []
      · rw [hnil]
        exact hempty _
      · -- the first number is taken for the path, and the second one is missing
        rw [scanNode_append _ hnil
          (fun h => not_mem_decimal _ rfl (by decide) (List.mem_of_mem_drop h)),
          scanInt_decimal _ (noDigit_cons rfl [])]
        · rfl
        · rw [List.length_drop]
          have : 33 ≤ stringSize - 1 := by decide
          omega
    | succ i =>
      rw [List.drop_of_length_le (by omega), List.nil_append, List.drop_succ_cons]
      apply scanNode_of_no_tab
      · intro h
        rcases List.mem_append.mp (List.mem_of_mem_drop h) with h | h
        · exact not_mem_decimal _ rfl (by decide) h
        · exact absurd h (by decide)
      · rw [List.length_cons] at hlen
        rw [List.length_drop]
        have : 33 ≤ stringSize - 1 := by decide
        omega

/-! ### The whole file -/

/-- One call of `fgets`. -/
theorem loadHistory_step {file : File Char} (hopps : List HopNode) (hfile : file.Smooth)
    (hne : file.unread ≠ []) :
    ∃ g : File Char, g.Smooth ∧
      file.unread = (firstLine '\n' file.unread).take (stringSize - 1) ++ g.unread ∧
      loadHistory file hopps = loadHistory g
        ((scanNode (cString ((firstLine '\n' file.unread).take (stringSize - 1)))).toList ++
          hopps) := by
  obtain ⟨g, hget, hsmooth, hunread⟩ := File.fgets_of_ne_nil stringSize hfile hne
  refine ⟨g, hsmooth, hunread, ?_⟩
  rw [loadHistory]
  split
  · rename_i line file' heq
    rw [hget] at heq
    obtain ⟨hline, rfl⟩ := Prod.mk.inj heq
    obtain rfl := Fgets.line.inj hline
    cases scanNode (cString ((firstLine '\n' file.unread).take (stringSize - 1))) with
    | none | some node => rfl
  all_goals
    rename_i heq
    rw [hget] at heq
    cases heq

/-- The line of an entry ends with the first newline and has no terminator in it. -/
theorem formatNode_line (hn : n.Sound) (hnewline : '\n' ∉ n.path) :
    nul ∉ formatNode n ∧ ∃ body, formatNode n = body ++ ['\n'] ∧ '\n' ∉ body := by
  have hchar : ∀ c : Char, c.isDigit = false → c ≠ '-' → c ≠ '\t' → c ∉ n.path →
      c ∉ n.path ++ '\t' :: (decimal n.freq.toInt ++ '\t' :: decimal n.lastVisit.toInt) := by
    intro c hdigit hminus htab hpath
    simp only [List.mem_append, List.mem_cons, not_or]
    exact ⟨hpath, htab, not_mem_decimal _ hdigit hminus, htab, not_mem_decimal _ hdigit hminus⟩
  have hline : formatNode n = (n.path ++ '\t' :: (decimal n.freq.toInt ++
      '\t' :: decimal n.lastVisit.toInt)) ++ ['\n'] := by simp [formatNode]
  refine ⟨?_, _, hline, hchar '\n' rfl (by decide) (by decide) hnewline⟩
  rw [hline]
  exact List.not_mem_append (hchar nul rfl (by decide) (by decide) hn.nul_free) (by decide)

/-- The calls for the line of an entry. -/
theorem loadHistory_entry {file : File Char} {rest : Str} (hopps : List HopNode)
    (hfile : file.Smooth) (hn : n.Sound) (hnewline : '\n' ∉ n.path)
    (hunread : file.unread = formatNode n ++ rest) :
    ∃ g : File Char, g.Smooth ∧ g.unread = rest ∧
      loadHistory file hopps = loadHistory g ((restored n).toList ++ hopps) := by
  obtain ⟨hnul, body, hline, hbody⟩ := formatNode_line hn hnewline
  have hne : file.unread ≠ [] := by simp [hunread, formatNode]
  have hfirst : firstLine '\n' file.unread = formatNode n := by
    rw [hunread, hline, List.append_assoc, List.singleton_append, firstLine,
      linesOf_append_sep hbody]
    rfl
  obtain ⟨g, hsmooth, hg, hload⟩ := loadHistory_step hopps hfile hne
  rw [hfirst, cString_of_not_mem fun h => hnul (List.mem_of_mem_take h), ← restored] at hload
  have hrest : g.unread = (formatNode n).drop (stringSize - 1) ++ rest := by
    rw [hfirst, hunread] at hg
    nth_rewrite 1 [← List.take_append_drop (stringSize - 1) (formatNode n)] at hg
    rw [List.append_assoc] at hg
    exact (List.append_cancel_left hg).symm
  by_cases hfits : (formatNode n).length ≤ stringSize - 1
  · refine ⟨g, hsmooth, ?_, hload⟩
    rw [hrest, List.drop_of_length_le hfits, List.nil_append]
  · -- the rest of the line is read by another call
    have hdrop : (formatNode n).drop (stringSize - 1) = body.drop (stringSize - 1) ++ ['\n'] := by
      rw [hline, List.length_append, List.length_singleton] at hfits
      rw [hline, List.drop_append_of_le_length (by omega)]
    have hfirst' : firstLine '\n' g.unread = (formatNode n).drop (stringSize - 1) := by
      rw [hrest, hdrop, List.append_assoc, List.singleton_append, firstLine,
        linesOf_append_sep fun h => hbody (List.mem_of_mem_drop h)]
      rfl
    have hshort : ((formatNode n).drop (stringSize - 1)).length ≤ stringSize - 1 := by
      have hpath := hn.short
      have hlen := length_numbersOf_le n
      have hsize : 34 ≤ stringSize - 1 := by decide
      rw [List.length_drop, formatNode_eq, List.length_append, List.length_cons]
      omega
    obtain ⟨g', hsmooth', hg', hload'⟩ := loadHistory_step ((restored n).toList ++ hopps) hsmooth
      (by simp [hrest, hdrop])
    rw [hfirst', List.take_of_length_le hshort] at hg' hload'
    rw [cString_of_not_mem fun h => hnul (List.mem_of_mem_drop h), scanNode_remainder hn] at hload'
    refine ⟨g', hsmooth', ?_, hload.trans hload'⟩
    rw [hrest] at hg'
    exact (List.append_cancel_left hg').symm

variable {hopps : List HopNode}

/-- **What comes back of a list**: the entries that are read back, the last one first. -/
theorem loadHistory_saveHistory (file : File Char) (acc : List HopNode) (hfile : file.Smooth)
    (hsound : ∀ n ∈ hopps, n.Sound) (hnewline : ∀ n ∈ hopps, '\n' ∉ n.path)
    (hunread : file.unread = saveHistory hopps) :
    loadHistory file acc = (hopps.filterMap restored).reverse ++ acc := by
  induction hopps generalizing file acc with
  | nil =>
    have hsize : 1 < stringSize := by decide
    obtain ⟨g, hget⟩ := File.fgets_of_nil hsize hfile hunread
    rw [loadHistory]
    split
    all_goals
      rename_i heq
      rw [hget] at heq
      cases heq
    rfl
  | cons n hopps ih =>
    obtain ⟨g, hsmooth, hrest, hload⟩ := loadHistory_entry acc hfile (hsound n List.mem_cons_self)
      (hnewline n List.mem_cons_self) hunread
    rw [hload, ih g _ hsmooth (fun m hm => hsound m (List.mem_cons_of_mem _ hm))
      (fun m hm => hnewline m (List.mem_cons_of_mem _ hm)) hrest]
    cases hr : restored n with
    | none => rw [List.filterMap_cons_none hr]; rfl
    | some m => rw [List.filterMap_cons_some hr]; simp

/-! ### Stores that can be reached -/

/-- What is read has a path, with no tab, newline or terminator in it. -/
theorem scanNode_sound {text : Str} {k : ℕ}
    (h : scanNode (cString ((firstLine '\n' text).take k)) = some n) :
    n.Sound ∧ '\t' ∉ n.path ∧ '\n' ∉ n.path := by
  have hcut : cString ((firstLine '\n' text).take k) <+: firstLine '\n' text :=
    (List.takeWhile_prefix _).trans (List.take_prefix _ _)
  have hnul : nul ∉ cString ((firstLine '\n' text).take k) := by
    intro h
    simpa using List.mem_takeWhile_imp h
  generalize cString ((firstLine '\n' text).take k) = line at h hcut hnul
  unfold scanNode at h
  simp only at h
  generalize hpath : (line.takeWhile (· ≠ '\t')).take (stringSize - 1) = path at h
  have hinit : path <+: line.takeWhile (· ≠ '\t') := hpath ▸ List.take_prefix _ _
  split at h
  · cases h
  · rename_i hne
    split at h
    · cases h
    · rename_i hscan
      split at h
      · cases h
      · obtain rfl := Option.some.inj h
        refine ⟨⟨hne, ?_, hpath ▸ List.length_take_le _ _⟩, ?_, ?_⟩
        · exact fun hmem => hnul (List.takeWhile_subset _ (hinit.subset hmem))
        · intro htab
          simpa using List.mem_takeWhile_imp (hinit.subset htab)
        · -- then the path would be the whole line, and no number follows
          intro hnewline
          obtain ⟨p, s, hps⟩ : ∃ p s, path = p ++ '\n' :: s := List.append_of_mem hnewline
          obtain ⟨t, ht⟩ := hinit.trans (List.takeWhile_prefix _)
          obtain ⟨u, hu⟩ := hcut
          have hnil : s ++ (t ++ u) = [] :=
            firstLine_sep_last (p := p) (by rw [← hu, ← ht, hps]; simp)
          rw [← ht, (List.append_eq_nil_iff.mp (List.append_eq_nil_iff.mp hnil).2).1,
            List.append_nil, List.drop_length] at hscan
          cases hscan

/-- What is in the list that is loaded was there before or has been read. -/
theorem loadHistory_sound (file : File Char) (hopps : List HopNode) :
    ∀ n ∈ loadHistory file hopps, n ∈ hopps ∨ n.Sound ∧ '\t' ∉ n.path ∧ '\n' ∉ n.path := by
  fun_induction loadHistory file hopps with
  | case1 file hopps line file' hget hscan ih => exact ih
  | case2 file hopps line file' hget node hscan ih =>
    intro n hn
    rcases ih n hn with hmem | hsound
    · rcases List.mem_cons.mp hmem with rfl | hmem
      · rw [(File.of_fgets hget).1] at hscan
        exact .inr (scanNode_sound hscan)
      · exact .inl hmem
    · exact .inr hsound
  | case3 | case4 | case5 => exact fun n => .inl

theorem recordVisit_sound {time : Int64} {path : Str} (hne : path ≠ []) (hnul : nul ∉ path)
    (h : ∀ n ∈ hopps, n.Sound) :
    ∀ n ∈ recordVisit time path hopps, n.Sound := by
  unfold recordVisit
  split
  · intro n hn
    rcases mem_updateFirst hn with hn | ⟨m, hm, -, rfl⟩
    · exact h n hn
    · exact ⟨(h m hm).ne_nil, (h m hm).nul_free, (h m hm).short⟩
  · intro n hn
    rcases List.mem_cons.mp hn with rfl | hn
    · refine ⟨?_, fun hmem => hnul (List.mem_of_mem_take hmem), List.length_take_le _ _⟩
      cases path with
      | nil => exact absurd rfl hne
      | cons c path => exact List.cons_ne_nil _ _
    · exact h n hn

/-- Every entry of every session has a path, without a terminator in it. -/
theorem hopps_sound (home : AbsPath) (files : Str → Option Str) (events : List Event) :
    ∀ n ∈ (after home files events).hopps, n.Sound := by
  apply after_invariant (I := fun s => ∀ n ∈ s.hopps, n.Sound) (P := fun _ => True) files events
  · exact fun _ _ _ _ => trivial
  · exact nofun
  · intro s hs
    unfold loadOnce
    split
    · exact hs
    · simp only
      split
      · exact hs
      · exact fun n hn => (loadHistory_sound _ _ n hn).elim (hs n) And.left
  · intro env _ target s s' hs h
    obtain ⟨currentDir, newDir, -, -, -, -, h | ⟨newPath, files, hget, hhopps, -⟩⟩ :=
      changeDirectory_cases h
    · rw [h.2.1]
      exact hs
    · rw [hhopps, (getcwd_some hget).1]
      apply recordVisit_sound _ newDir.nulFree hs
      intro hnil
      have := newDir.absolute
      rw [hnil] at this
      cases this
  · exact fun s _ => nofun

/-! ### What comes back -/

/-- **When the entries come back**: exactly if all of them are plain, and then in reverse
order. -/
theorem preserved_iff (home : AbsPath) (files : Str → Option Str) (events : List Event)
    {moods : List Mood} (hmoods : ∀ mood ∈ moods, ∃ k, mood = Mood.upTo k) :
    let hopps := (after home files events).hopps
    let loaded := loadHistory ⟨[], ⟨saveHistory hopps, 0, moods⟩⟩ []
    ((∀ n, n ∈ loaded ↔ n ∈ hopps) ↔ ∀ n ∈ hopps, n.Plain) ∧
      ((∀ n ∈ hopps, n.Plain) → loaded = hopps.reverse) := by
  intro hopps loaded
  have hsound := hopps_sound home files events
  have hloaded : (∀ n ∈ hopps, '\n' ∉ n.path) → loaded = (hopps.filterMap restored).reverse := by
    intro hnewline
    rw [← List.append_nil (List.reverse _)]
    exact loadHistory_saveHistory _ [] hmoods hsound hnewline rfl
  have hplain : (∀ n ∈ hopps, n.Plain) → loaded = hopps.reverse := by
    intro hplain
    rw [hloaded fun n hn => (hplain n hn).no_newline]
    congr 1
    refine (List.filterMap_congr fun n hn => ?_).trans List.filterMap_some
    exact restored_of_plain (hsound n hn) (hplain n hn)
  refine ⟨⟨?_, ?_⟩, hplain⟩
  · intro hset
    have hclean : ∀ n ∈ hopps, '\t' ∉ n.path ∧ '\n' ∉ n.path := by
      intro n hn
      exact ((loadHistory_sound _ _ n ((hset n).mpr hn)).resolve_left List.not_mem_nil).2
    intro n hn
    have hmem := (hset n).mpr hn
    rw [hloaded fun m hm => (hclean m hm).2, List.mem_reverse, List.mem_filterMap] at hmem
    obtain ⟨m, hm, hr⟩ := hmem
    exact ⟨(hclean n hn).1, (hclean n hn).2, length_of_restored (hsound m hm) (hclean m hm).1 hr⟩
  · intro h n
    rw [hplain h, List.mem_reverse]

/-- **When the history round-trips through its file**: the same entries come back, none
lost, altered or invented, exactly if every entry is plain. -/
theorem history_round_trips (home : AbsPath) (files : Str → Option Str) (events : List Event)
    (moods : List Mood) (hmoods : ∀ mood ∈ moods, ∃ k, mood = Mood.upTo k) :
    (∀ n, n ∈ loadHistory ⟨[], ⟨saveHistory (after home files events).hopps, 0, moods⟩⟩ [] ↔
        n ∈ (after home files events).hopps) ↔
      ∀ n ∈ (after home files events).hopps, n.Plain :=
  (preserved_iff home files events hmoods).1

/-- A directory with a blank in its name. -/
def dirX : AbsPath := ⟨"/x/a b".toList, rfl, by decide⟩

/-- A directory without one. -/
def dirY : AbsPath := ⟨"/y/a".toList, rfl, by decide⟩

theorem history_round_trips_two :
    ⟨"/x/a b".toList, 2, 8⟩ ∈ loadHistory ⟨[], ⟨saveHistory
      (visits homeDir [(dirX, 5), (dirY, 7), (dirX, 8)]).hopps, 0, [.upTo 3]⟩⟩ [] :=
  ((history_round_trips homeDir (fun _ => none) _ [.upTo 3] (by simp)).mpr (by decide +kernel)
    _).mpr (by decide +kernel)

/-- A directory with a tab in its name. -/
def dirTab : AbsPath := ⟨"/a\tb".toList, rfl, by decide⟩

/-- **A directory with a tab in its name is lost**: its path is read up to the tab,
and what follows is not a number. -/
theorem tab_in_path_lost :
    (visits homeDir [(dirTab, 5)]).hopps = [⟨"/a\tb".toList, 1, 5⟩] ∧
    loadHistory ⟨[], ⟨saveHistory (visits homeDir [(dirTab, 5)]).hopps, 0, []⟩⟩ [] = [] := by
  decide +kernel

/-! ### Queries -/

/-- An entry that a query considers. -/
def Candidate (directoryExists : Str → Bool) (name : Str) (n : HopNode) : Prop :=
  name <:+: n.path ∧ directoryExists n.path = true

instance (directoryExists : Str → Bool) (name : Str) (n : HopNode) :
    Decidable (Candidate directoryExists name n) :=
  inferInstanceAs (Decidable (_ ∧ _))

/-- A candidate with the highest score. -/
def IsBest (directoryExists : Str → Bool) (name : Str) (hopps : List HopNode)
    (n : HopNode) : Prop :=
  n ∈ hopps ∧ Candidate directoryExists name n ∧
    ∀ m ∈ hopps, Candidate directoryExists name m → score m ≤ score n

instance (directoryExists : Str → Bool) (name : Str) (hopps : List HopNode) (n : HopNode) :
    Decidable (IsBest directoryExists name hopps n) :=
  inferInstanceAs (Decidable (_ ∧ _ ∧ _))

/-- The first of the candidates with the highest score. -/
def IsFirstBest (directoryExists : Str → Bool) (name : Str) (hopps : List HopNode)
    (n : HopNode) : Prop :=
  ∃ before after, hopps = before ++ n :: after ∧ Candidate directoryExists name n ∧
    (∀ m ∈ before, Candidate directoryExists name m → score m < score n) ∧
    ∀ m ∈ after, Candidate directoryExists name m → score m ≤ score n

theorem IsFirstBest.isBest
    (h : IsFirstBest directoryExists name hopps n) :
    IsBest directoryExists name hopps n := by
  obtain ⟨before, after, rfl, hcand, hbefore, hafter⟩ := h
  refine ⟨List.mem_append_right _ List.mem_cons_self, hcand, ?_⟩
  intro m hm hc
  rcases List.mem_append.mp hm with hm | hm
  · exact Int64.le_of_lt (hbefore m hm hc)
  · rcases List.mem_cons.mp hm with rfl | hm
    · exact Int64.le_refl _
    · exact hafter m hm hc

/-- An entry in front that scores less changes nothing. -/
theorem IsFirstBest.cons {curr : HopNode}
    (h : IsFirstBest directoryExists name hopps n)
    (hcurr : Candidate directoryExists name curr → score curr < score n) :
    IsFirstBest directoryExists name (curr :: hopps) n := by
  obtain ⟨before, after, rfl, hcand, hbefore, hafter⟩ := h
  refine ⟨curr :: before, after, rfl, hcand, ?_, hafter⟩
  intro m hm hc
  rcases List.mem_cons.mp hm with rfl | hm
  · exact hcurr hc
  · exact hbefore m hm hc

/-- **The loop of a query**: it keeps what it has, if nothing scores higher, or
finds the first candidate with the highest score. -/
theorem bestMatch_spec (directoryExists : Str → Bool) (name : Str) (rest : List HopNode)
    (best : Option HopNode) (bestScore : Int64) :
    (bestMatch directoryExists name rest best bestScore = best ∧
      ∀ n ∈ rest, Candidate directoryExists name n → score n ≤ bestScore) ∨
    ∃ n, bestMatch directoryExists name rest best bestScore = some n ∧
      IsFirstBest directoryExists name rest n ∧ bestScore < score n := by
  induction rest generalizing best bestScore with
  | nil => exact .inl ⟨rfl, nofun⟩
  | cons curr rest ih =>
    -- an entry that does not become the best one
    have hskip : ∀ r, r = bestMatch directoryExists name rest best bestScore →
        (Candidate directoryExists name curr → score curr ≤ bestScore) →
        (r = best ∧ ∀ n ∈ curr :: rest, Candidate directoryExists name n → score n ≤ bestScore) ∨
        ∃ n, r = some n ∧ IsFirstBest directoryExists name (curr :: rest) n ∧
          bestScore < score n := by
      rintro r rfl hcurr
      rcases ih best bestScore with ⟨hbest, hall⟩ | ⟨n, hn, hfirst, hlt⟩
      · refine .inl ⟨hbest, fun n hn hc => ?_⟩
        rcases List.mem_cons.mp hn with rfl | hn
        · exact hcurr hc
        · exact hall n hn hc
      · exact .inr ⟨n, hn, hfirst.cons fun hc => Int64.lt_of_le_of_lt (hcurr hc) hlt, hlt⟩
    unfold bestMatch
    split
    · rename_i hsub
      split
      · rename_i hexists
        split
        · -- the new best one
          rename_i hlt
          right
          rcases ih (some curr) (score curr) with ⟨hbest, hall⟩ | ⟨n, hn, hfirst, hgt⟩
          · exact ⟨curr, hbest, ⟨[], rest, rfl, ⟨hsub, hexists⟩, nofun, hall⟩, hlt⟩
          · exact ⟨n, hn, hfirst.cons fun _ => hgt, Int64.lt_trans hlt hgt⟩
        · exact hskip _ rfl fun _ => Int64.not_lt.mp ‹_›
      · exact hskip _ rfl fun hc => absurd hc.2 ‹_›
    · exact hskip _ rfl fun hc => absurd hc.1 ‹_›

/-- A query finds the first candidate with the highest score, if that is above the
sentinel. -/
theorem findBestMatch_spec (directoryExists : Str → Bool) (name : Str) (hopps : List HopNode) :
    (findBestMatch directoryExists name hopps = none ∧
      ∀ n ∈ hopps, Candidate directoryExists name n → score n ≤ -1) ∨
    ∃ n, findBestMatch directoryExists name hopps = some n ∧
      IsFirstBest directoryExists name hopps n ∧ -1 < score n :=
  bestMatch_spec directoryExists name hopps none (-1)

/-- There is only one. -/
theorem IsFirstBest.find?_eq
    (h : IsFirstBest directoryExists name hopps n) :
    hopps.find? (fun m => decide (IsBest directoryExists name hopps m)) = some n := by
  have hbest := h.isBest
  obtain ⟨before, after, hsplit, -, hbefore, -⟩ := h
  refine List.find?_eq_some_iff_append.mpr ⟨decide_eq_true hbest, before, after, hsplit, ?_⟩
  intro m hm
  rw [Bool.not_eq_true', decide_eq_false_iff_not]
  rintro ⟨-, hcand, hmax⟩
  exact Int64.not_lt.mpr (hmax n hbest.1 hbest.2.1) (hbefore m hm hcand)

/-- **When a query gives the same answer after a restart**: the entries being preserved,
exactly if the first and the last of those with the highest score are the same directory,
or that score is not above the sentinel. -/
theorem best_match_survives (home : AbsPath) (files : Str → Option Str) (events : List Event)
    (moods : List Mood) (hmoods : ∀ mood ∈ moods, ∃ k, mood = Mood.upTo k)
    (directoryExists : Str → Bool) (name : Str) :
    let hopps := (after home files events).hopps
    let loaded := loadHistory ⟨[], ⟨saveHistory hopps, 0, moods⟩⟩ []
    (∀ n, n ∈ loaded ↔ n ∈ hopps) →
      ((findBestMatch directoryExists name loaded).map HopNode.path =
          (findBestMatch directoryExists name hopps).map HopNode.path ↔
        ∀ n m, IsFirstBest directoryExists name hopps n →
          IsFirstBest directoryExists name hopps.reverse m → -1 < score n → n.path = m.path) := by
  intro hopps loaded hset
  obtain ⟨hiff, hloaded⟩ := preserved_iff home files events hmoods
  have hreverse : loaded = hopps.reverse := hloaded (hiff.mp hset)
  rw [hreverse]
  rcases findBestMatch_spec directoryExists name hopps with
    ⟨hnone, hall⟩ | ⟨n, hn, hfirst, hpos⟩
  · rcases findBestMatch_spec directoryExists name hopps.reverse with
      ⟨hnone', -⟩ | ⟨m, -, hfirst', hpos'⟩
    · rw [hnone, hnone']
      refine iff_of_true rfl fun n m hn _ hpos => ?_
      exact absurd hpos (Int64.not_lt.mpr (hall n hn.isBest.1 hn.isBest.2.1))
    · obtain ⟨hmem, hcand, -⟩ := hfirst'.isBest
      exact absurd hpos' (Int64.not_lt.mpr (hall m (List.mem_reverse.mp hmem) hcand))
  · rcases findBestMatch_spec directoryExists name hopps.reverse with
      ⟨-, hall'⟩ | ⟨m, hm, hfirst', -⟩
    · obtain ⟨hmem, hcand, -⟩ := hfirst.isBest
      exact absurd hpos (Int64.not_lt.mpr (hall' n (List.mem_reverse.mpr hmem) hcand))
    · rw [hn, hm, Option.map_some, Option.map_some, Option.some_inj]
      constructor
      · intro hpath n' m' hn' hm' _
        obtain rfl := Option.some.inj (hn'.find?_eq.symm.trans hfirst.find?_eq)
        obtain rfl := Option.some.inj (hm'.find?_eq.symm.trans hfirst'.find?_eq)
        exact hpath.symm
      · intro h
        exact (h n m hfirst hfirst' hpos).symm

theorem best_match_survives_two :
    (findBestMatch (fun _ => true) "a".toList (loadHistory ⟨[], ⟨saveHistory
      (visits homeDir [(dirX, 5), (dirY, 7), (dirX, 8)]).hopps, 0, []⟩⟩ [])).map HopNode.path =
    some "/x/a b".toList := by
  have hloaded : loadHistory ⟨[], ⟨saveHistory
      (visits homeDir [(dirX, 5), (dirY, 7), (dirX, 8)]).hopps, 0, []⟩⟩ [] =
      (visits homeDir [(dirX, 5), (dirY, 7), (dirX, 8)]).hopps.reverse := by
    decide +kernel
  have hunique : ∀ n ∈ (visits homeDir [(dirX, 5), (dirY, 7), (dirX, 8)]).hopps,
      IsBest (fun _ => true) "a".toList
        (visits homeDir [(dirX, 5), (dirY, 7), (dirX, 8)]).hopps n →
      ∀ m ∈ (visits homeDir [(dirX, 5), (dirY, 7), (dirX, 8)]).hopps.reverse,
      IsBest (fun _ => true) "a".toList
        (visits homeDir [(dirX, 5), (dirY, 7), (dirX, 8)]).hopps.reverse m → n.path = m.path := by
    decide +kernel
  refine ((best_match_survives homeDir (fun _ => none) _ [] (by simp) (fun _ => true) "a".toList
    fun n => ?_).mpr fun n m hn hm _ => ?_).trans (by decide +kernel)
  · exact hloaded ▸ List.mem_reverse
  · exact hunique n hn.isBest.1 hn.isBest m hm.isBest.1 hm.isBest

/-- **A tie is decided by the order of the list**, which a restart reverses: two
directories visited once each, in the same second. -/
theorem tie_changes_answer :
    (findBestMatch (fun _ => true) "a".toList
      (visits homeDir [(dirX, 5), (dirY, 5)]).hopps).map HopNode.path = some "/y/a".toList ∧
    (findBestMatch (fun _ => true) "a".toList (loadHistory ⟨[], ⟨saveHistory
      (visits homeDir [(dirX, 5), (dirY, 5)]).hopps, 0, []⟩⟩ [])).map HopNode.path =
      some "/x/a b".toList := by
  decide +kernel

end Hop
end RuShell
