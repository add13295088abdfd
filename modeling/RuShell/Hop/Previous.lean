import RuShell.Hop.Model

/-!
# The directory that `-` names

`hop` keeps the directory it left in memory and in `prev_dir.txt`, `reveal` only
knows the file: it reads the first line of it and removes the white space at the
end.  Both mean the same directory unless its name has a newline in it or ends in
white space.

## Main definitions

* `prevContents` — what `prev_dir.txt` should hold.
* `InSync` — the invariant: the file holds it.

## Main results

* `getHistoryPath_ne_prevPath` — the two files of `hop` are different ones.
* `after_inSync` — **the file follows the variable** in every session.
* `readPrevDir_of_inSync` — what `reveal` reads in such a state.
* `hop_and_reveal_agree` — **both mean the same directory**.
* `trailing_space_dropped` — a directory whose name ends in a blank.
-/

namespace RuShell
namespace Hop

open Lib

variable {home : AbsPath} {s s' : Shell}

/-- What `prev_dir.txt` holds: nothing before the first hop. -/
def prevContents (previousDir : Str) : Str :=
  if previousDir = [] then [] else previousDir ++ ['\n']

/-- `prev_dir.txt` holds `previous_dir`. -/
structure InSync (home : AbsPath) (s : Shell) : Prop where
  file : s.files (home.path ++ "/prev_dir.txt".toList) = some (prevContents s.previousDir)
  fits : s.previousDir.length < stringSize
  nul_free : nul ∉ s.previousDir

/-! ### Names -/

theorem prevPath_of_fits (hhome : home.path.length + 13 < stringSize) :
    prevPath home = home.path ++ "/prev_dir.txt".toList := by
  apply snprintf_of_fits
  rw [List.length_append]
  exact hhome

/-- The names differ in the letter after the last slash. -/
theorem getHistoryPath_ne_prevPath (hhome : home.path.length + 13 < stringSize) :
    getHistoryPath home ≠ home.path ++ "/prev_dir.txt".toList := by
  intro h
  have hletter := congrArg (fun l => l[home.path.length + 1]?) h
  simp only [getHistoryPath, snprintf] at hletter
  rw [List.getElem?_take_of_lt (by omega),
    List.getElem?_append_right (Nat.le_add_right _ 1),
    List.getElem?_append_right (Nat.le_add_right _ 1), Nat.add_sub_cancel_left] at hletter
  exact absurd hletter (by decide)

theorem write_self (files : Str → Option Str) (name contents : Str) :
    write files name contents name = some contents :=
  if_pos rfl

theorem write_of_ne {files : Str → Option Str} {name contents n : Str} (h : n ≠ name) :
    write files name contents n = files n :=
  if_neg h

/-! ### The invariant -/

theorem start_inSync (files : Str → Option Str) : InSync home (start home files) where
  file := write_self _ _ _
  fits := Nat.zero_lt_succ _
  nul_free := nofun

/-- **A successful hop writes what it left.** -/
theorem changeDirectory_inSync (hhome : home.path.length + 13 < stringSize) {env : Env}
    (henv : env.writable (prevPath home) = true) {target : Str}
    (h : changeDirectory home env target s = some s') : InSync home s' := by
  obtain ⟨currentDir, newDir, hcur, -, hprev, -, hfiles⟩ := changeDirectory_cases h
  obtain ⟨rfl, hfits⟩ := getcwd_some hcur
  have hne : s.cwd.path ≠ [] := by
    intro hnil
    have habs := s.cwd.absolute
    rw [hnil] at habs
    cases habs
  -- the history, if it is written, goes to another file
  have hfile : s'.files (prevPath home) = some (s.cwd.path ++ ['\n']) := by
    rcases hfiles with ⟨-, -, hfiles⟩ | ⟨newPath, files, -, -, rfl, hfiles⟩
    · rw [hfiles, if_pos henv, write_self]
    · rw [hfiles, if_pos henv]
      split
      · rw [write_of_ne, write_self]
        rw [prevPath_of_fits hhome]
        exact (getHistoryPath_ne_prevPath hhome).symm
      · rw [write_self]
  rw [prevPath_of_fits hhome] at hfile
  constructor
  · rw [hfile, hprev, prevContents, if_neg hne]
  · rw [hprev]
    exact hfits
  · rw [hprev]
    exact s.cwd.nulFree

/-- **The file follows the variable** in every session. -/
theorem after_inSync (hhome : home.path.length + 13 < stringSize) (files : Str → Option Str)
    (events : List Event)
    (hwritable : ∀ e ∈ events, ∀ env ∈ e.envs, env.writable (prevPath home) = true) :
    InSync home (after home files events) := by
  apply after_invariant (I := InSync home) files events hwritable
  · exact start_inSync files
  · intro s hs
    unfold loadOnce
    split
    · exact hs
    · exact ⟨hs.file, hs.fits, hs.nul_free⟩
  · intro env henv target s s' _ h
    exact changeDirectory_inSync hhome henv h
  · exact fun s _ => start_inSync s.files

/-! ### Reading it back -/

/-- `fgets` of a file that is one line, if the line fits the buffer. -/
theorem fgets_single_line {file : File Char} {line : Str} {size : ℕ} (hfile : file.Smooth)
    (hcontents : file.unread = line ++ ['\n']) (hline : '\n' ∉ line)
    (hsize : line.length + 1 < size) :
    ∃ g, file.fgets '\n' size = (.line (line ++ ['\n']), g) := by
  have hne : file.unread ≠ [] := by
    rw [hcontents]
    exact List.append_ne_nil_of_right_ne_nil _ (List.cons_ne_nil _ _)
  have hfirst : firstLine '\n' file.unread = line ++ ['\n'] := by
    have hlines := linesOf_append_sep (l := []) hline
    rw [← hcontents, linesOf_eq_cons hne] at hlines
    rw [(List.cons.inj hlines).1, hcontents]
  obtain ⟨g, hget, -⟩ : ∃ g, file.fgets '\n' size =
      (.line ((firstLine '\n' file.unread).take (size - 1)), g) ∧ _ :=
    File.fgets_of_ne_nil _ hfile hne
  refine ⟨g, ?_⟩
  rw [hget, hfirst, List.take_of_length_le]
  rw [List.length_append, List.length_singleton]
  omega

/-- What `reveal` reads: a line, without the white space at its end. -/
theorem readPrevDir_of_inSync (hhome : home.path.length + 13 < stringSize) (hs : InSync home s)
    (hnewline : '\n' ∉ s.previousDir) :
    readPrevDir home s.files =
      if s.previousDir.rdropWhile isspace = [] then none
      else some (s.previousDir.rdropWhile isspace) := by
  have hname : (home.path ++ "/prev_dir.txt".toList).length < stringSize := by
    rw [List.length_append]
    exact hhome
  have hbigger : stringSize < biggerBuffer := by decide
  have hfits := hs.fits
  set file : File Char := ⟨[], ⟨prevContents s.previousDir, 0, []⟩⟩ with hfile
  have hopen : openRead s.files (snprintf biggerBuffer (home.path ++ "/prev_dir.txt".toList)) =
      some file := by
    rw [snprintf_of_fits (Nat.lt_trans hname hbigger), openRead, if_pos hname, hs.file]
    rfl
  have hsmooth : file.Smooth := nofun
  have hunread : file.unread = prevContents s.previousDir := rfl
  unfold readPrevDir
  rw [hopen]
  simp only
  by_cases hprev : s.previousDir = []
  · have hnil : file.unread = [] := by rw [hunread, prevContents, if_pos hprev]
    obtain ⟨g, hget⟩ : ∃ g, file.fgets '\n' biggerBuffer = (.eof, g) :=
      File.fgets_of_nil (by decide) hsmooth hnil
    rw [hget, hprev]
    rfl
  · have hcontents : file.unread = s.previousDir ++ ['\n'] := by
      rw [hunread, prevContents, if_neg hprev]
    obtain ⟨g, hget⟩ := fgets_single_line hsmooth hcontents hnewline
      (by omega : s.previousDir.length + 1 < biggerBuffer)
    have hnul : nul ∉ s.previousDir ++ ['\n'] := List.not_mem_append hs.nul_free (by decide)
    rw [hget]
    simp only
    -- the newline is white space too
    rw [cString_of_not_mem hnul, List.rdropWhile_concat_pos _ _ _ (by decide)]
    split
    · rfl
    · rw [snprintf_of_fits]
      exact Nat.lt_of_le_of_lt (List.rdropWhile_prefix _ _).length_le (Nat.lt_trans hfits hbigger)

/-- **`hop -` and `reveal -` mean the same directory**, if its name has no newline and
does not end in white space, and neither this path nor the ones of the working
directory and of the file are too long for their buffers. -/
theorem hop_and_reveal_agree (home : AbsPath) (files : Str → Option Str) (events : List Event)
    (hwritable : ∀ e ∈ events, ∀ env ∈ e.envs, env.writable (prevPath home) = true)
    (hhome : home.path.length + 13 < stringSize)
    (hcwd : (after home files events).cwd.path.length < stringSize)
    (hnewline : '\n' ∉ (after home files events).previousDir)
    (hspace : ∀ c, (after home files events).previousDir.getLast? = some c → isspace c = false) :
    resolvedPath home (after home files events) (some "-".toList) =
      if (after home files events).previousDir = [] then none
      else some (after home files events).previousDir := by
  have hs := after_inSync hhome files events hwritable
  have hread := readPrevDir_of_inSync hhome hs hnewline
  set s := after home files events
  have htrim : s.previousDir.rdropWhile isspace = s.previousDir := by
    rw [List.rdropWhile_eq_self_iff]
    intro hne
    rw [hspace _ (List.getLast?_eq_some_getLast hne)]
    exact Bool.false_ne_true
  rw [htrim] at hread
  have hbigger : stringSize < biggerBuffer := by decide
  unfold resolvedPath getcwd
  rw [if_pos hcwd]
  show (readPrevDir home s.files).map (snprintf biggerBuffer) = _
  rw [hread]
  split
  · rfl
  · rw [Option.map_some, snprintf_of_fits (Nat.lt_trans hs.fits hbigger)]

/-- A directory whose name ends in a blank. -/
def dirBlank : AbsPath := ⟨"/a ".toList, rfl, by decide⟩

/-- A directory with a blank inside its name. -/
def dirB : AbsPath := ⟨"/b c".toList, rfl, by decide⟩

theorem hop_and_reveal_agree_two :
    resolvedPath homeDir (visits homeDir [(dirB, 5), (dirBlank, 6)]) (some "-".toList) =
      some "/b c".toList := by
  have hlast : (visits homeDir [(dirB, 5), (dirBlank, 6)]).previousDir.getLast? = some 'c' := by
    decide +kernel
  have h := hop_and_reveal_agree homeDir (fun _ => none)
    ([(dirB, 5), (dirBlank, 6)].map fun d => .hop (towards homeDir 0) [(d.1.path, towards d.1 d.2)])
    (by simp [Event.envs, towards]) (by decide +kernel) (by decide +kernel) (by decide +kernel)
    (fun c hc => by
      obtain rfl : 'c' = c := Option.some.inj (hlast.symm.trans hc)
      rfl)
  exact h.trans (by decide +kernel)

/-- **White space at the end of a name is dropped**: `hop -` would go back to `/a `,
`reveal -` lists `/a`. -/
theorem trailing_space_dropped :
    (visits homeDir [(dirBlank, 5), (dirB, 6)]).previousDir = "/a ".toList ∧
    resolvedPath homeDir (visits homeDir [(dirBlank, 5), (dirB, 6)]) (some "-".toList) =
      some "/a".toList := by
  decide +kernel

end Hop
end RuShell
