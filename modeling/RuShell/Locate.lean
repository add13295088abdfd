import RuShell.Hop.Model
import RuShell.Lib.Lists

/-!
# Finding a command

Two functions walk through `PATH`.  `resolve_command` of `c-shell/src/redirect.c`
finds the file to execute: it cuts `PATH` with `strtok`, which passes over empty
components, and leaves it to the system to take a relative component from the
working directory.  The builtin `locate` of `c-shell/src/locate.c` prints all
files that a name can mean: it cuts `PATH` with `strchr`, takes an empty
component for the working directory, and writes the working directory in front
of a relative one.

## Main definitions

* `Sys` — the working directory, `PATH` and the files that can be executed.
* `resolveCommand` — the file that is executed.
* `locatePaths`, `locate` — the paths that `locate` prints for a name, and its
  output.

## Main results

* `searchPath_eq`, `locateLoop_eq` — both loops in terms of the components of
  `PATH`.
* `locate_predicts` — **`locate` predicts what is executed.**
-/

namespace RuShell
namespace Locate

open Hop (AbsPath snprintf snprintf_of_fits)

/-- What the two functions ask the system for. -/
structure Sys where
  /-- The working directory. -/
  cwd : AbsPath
  /-- `getenv("PATH")` -/
  path : Option Str
  /-- The regular files that can be executed, by their absolute names. -/
  executable : Str → Bool
  /-- What an array of `locate` holds before anything is written to it. -/
  garbage : Str

/-- The absolute name of what a path means in the working directory. -/
def absolute (cwd : AbsPath) (path : Str) : Str :=
  if path.head? = some '/' then path else cwd.path ++ '/' :: path

/-- `is_exec` and `is_executable`. -/
def isExec (sys : Sys) (path : Str) : Bool := sys.executable (absolute sys.cwd path)

/-- `getcwd` into a buffer of 1024 bytes. -/
def getcwd (sys : Sys) : Option Str :=
  if sys.cwd.path.length < 1024 then some sys.cwd.path else none

/-! ### `resolve_command` -/

/-- `strtok(s, ":")`: the next token that is not empty, and what is behind it. -/
def strtok (s : Str) : Option (Str × Str) :=
  match s.dropWhile (· == ':') with
  | [] => none
  | c :: t => some (c :: t.takeWhile (· ≠ ':'), (t.dropWhile (· ≠ ':')).tail)

theorem strtok_length {s dir rest : Str} (h : strtok s = some (dir, rest)) :
    rest.length < s.length := by
  have hle : (s.dropWhile (· == ':')).length ≤ s.length :=
    (List.dropWhile_sublist _).length_le
  unfold strtok at h
  split at h
  · cases h
  · next c t hs =>
    obtain ⟨-, rfl⟩ := Prod.mk.inj (Option.some.inj h)
    rw [hs, List.length_cons] at hle
    have hle' : (t.dropWhile (· ≠ ':')).length ≤ t.length :=
      (List.dropWhile_sublist _).length_le
    rw [List.length_tail]
    omega

/-- The loop over `PATH`. -/
def searchPath (sys : Sys) (cmd path : Str) : Option Str :=
  match _h : strtok path with
  | none => none
  | some (dir, rest) =>
    let fullPath := snprintf 2048 (dir ++ '/' :: cmd)
    if isExec sys fullPath then some fullPath else searchPath sys cmd rest
termination_by path.length
decreasing_by exact strtok_length ‹_›

/-- The candidate in the working directory, if it can be executed. -/
def inCwd (sys : Sys) (cmd : Str) : Option Str :=
  match getcwd sys with
  | none => none
  | some cwd =>
    let fullPath := snprintf 2048 (cwd ++ '/' :: cmd)
    if isExec sys fullPath then some fullPath else none

/-- `resolve_command`; `none` is `NULL`. -/
def resolveCommand (sys : Sys) (cmd : Str) : Option Str :=
  if '/' ∈ cmd then if isExec sys cmd then some cmd else none
  else
    let skipCwd : Bool := cmd.head? = some '%'
    let cmd := if skipCwd then cmd.tail else cmd
    match if skipCwd then none else inCwd sys cmd with
    | some fullPath => some fullPath
    | none =>
      match sys.path with
      | none => none
      | some path => searchPath sys cmd path

/-! ### `locate` -/

/-- The path that is built for one component of `PATH`. -/
def componentPath (cwd filename dir : Str) : Str :=
  snprintf 4096
    (if dir = [] then cwd ++ '/' :: filename
    else if dir.head? ≠ some '/' then cwd ++ '/' :: (dir ++ '/' :: filename)
    else dir ++ '/' :: filename)

/-- The loop over `PATH`: the paths that it prints. -/
def locateLoop (sys : Sys) (cwd filename p : Str) : List Str :=
  let dir := (p.takeWhile (· ≠ ':')).take 1023
  let fullPath := componentPath cwd filename dir
  (if isExec sys fullPath then [fullPath] else []) ++
    match _h : p.dropWhile (· ≠ ':') with
    | [] => []
    | _ :: rest => locateLoop sys cwd filename rest
termination_by p.length
decreasing_by
  have hle : (p.dropWhile (· ≠ ':')).length ≤ p.length := (List.dropWhile_sublist _).length_le
  rw [‹p.dropWhile (· ≠ ':') = _›, List.length_cons] at hle
  exact hle

/-- The paths that `locate` prints for a name. -/
def locatePaths (sys : Sys) (filename : Str) : List Str :=
  (inCwd sys filename).toList ++
    locateLoop sys ((getcwd sys).getD sys.garbage) filename (sys.path.getD [])

/-- `locate`: what it prints; `args` is without the name of the builtin. -/
def locate (sys : Sys) (args : List Str) : Str :=
  if args = [] then "locate: invalid syntax\n".toList
  else
    args.flatMap fun filename =>
      if locatePaths sys filename = [] then
        "locate: command not found (".toList ++ filename ++ ")\n".toList
      else (locatePaths sys filename).flatMap (· ++ ['\n'])

/-! ### The components of `PATH` -/

/-- A text up to the first separator, and the rest. -/
theorem takeWhile_append_rest (p : Str) :
    (':' ∉ p ∧ p.takeWhile (· ≠ ':') = p ∧ p.dropWhile (· ≠ ':') = []) ∨
    ∃ rest, p.dropWhile (· ≠ ':') = ':' :: rest ∧ p = p.takeWhile (· ≠ ':') ++ ':' :: rest := by
  induction p with
  | nil => exact .inl ⟨List.not_mem_nil, rfl, rfl⟩
  | cons c p ih =>
    by_cases hc : c = ':'
    · subst hc
      exact .inr ⟨p, by simp, by simp⟩
    · have htake : (c :: p).takeWhile (· ≠ ':') = c :: p.takeWhile (· ≠ ':') :=
        List.takeWhile_cons_of_pos (by simpa using hc)
      have hdrop : (c :: p).dropWhile (· ≠ ':') = p.dropWhile (· ≠ ':') :=
        List.dropWhile_cons_of_pos (by simpa using hc)
      rw [htake, hdrop]
      rcases ih with ⟨hmem, ht, hd⟩ | ⟨rest, hd, hp⟩
      · refine .inl ⟨?_, by rw [ht], hd⟩
        rw [List.mem_cons, not_or]
        exact ⟨Ne.symm hc, hmem⟩
      · exact .inr ⟨rest, hd, by rw [List.cons_append, ← hp]⟩

theorem not_mem_takeWhile (p : Str) : ':' ∉ p.takeWhile (· ≠ ':') := by
  intro h
  have := List.mem_takeWhile_imp h
  simp at this

/-- The loop of `locate` takes every component. -/
theorem locateLoop_eq (sys : Sys) (cwd filename p : Str) :
    locateLoop sys cwd filename p =
      ((p.splitOn ':').map fun dir => componentPath cwd filename (dir.take 1023)).filter
        (isExec sys) := by
  induction p using locateLoop.induct with
  | cwd => exact cwd
  | filename => exact filename
  | case1 p ih =>
    -- what is printed for one component
    have hone : ∀ path : Str, (if isExec sys path then [path] else []) =
        [path].filter (isExec sys) := by
      intro path
      rw [List.filter_singleton]
      cases isExec sys path <;> rfl
    rw [locateLoop]
    simp only [hone]
    rcases takeWhile_append_rest p with ⟨hmem, htake, hdrop⟩ | ⟨rest, hdrop, hp⟩
    · rw [htake, List.splitOn_eq_singleton hmem]
      split
      · rw [List.append_nil, List.map_singleton]
      · next h =>
        rw [hdrop] at h
        cases h
    · have hsplit : p.splitOn ':' = p.takeWhile (· ≠ ':') :: rest.splitOn ':' := by
        conv_lhs => rw [hp]
        exact List.splitOn_append_cons_self_of_not_mem (not_mem_takeWhile p) rest
      rw [hsplit, List.map_cons]
      split
      · next h =>
        rw [hdrop] at h
        cases h
      · next c rest' h =>
        obtain ⟨-, rfl⟩ := List.cons.inj (hdrop.symm.trans h)
        rw [ih _ _ hdrop, ← List.filter_append]
        rfl

/-- The components that `strtok` returns. -/
def components (path : Str) : List Str := (path.splitOn ':').filter (· ≠ [])

theorem components_colon (path : Str) : components (':' :: path) = components path := by
  have hsplit : (':' :: path).splitOn ':' = [] :: path.splitOn ':' :=
    List.splitOn_append_cons_self_of_not_mem List.not_mem_nil path
  rw [components, hsplit, List.filter_cons_of_neg (by simp)]
  rfl

theorem strtok_colon (path : Str) : strtok (':' :: path) = strtok path := by
  unfold strtok
  rw [List.dropWhile_cons_of_pos (by rfl)]

/-- `strtok` returns the components one after the other. -/
theorem strtok_spec (path : Str) :
    match strtok path with
    | none => components path = []
    | some (dir, rest) => components path = dir :: components rest := by
  induction path with
  | nil => rfl
  | cons c path ih =>
    by_cases hc : c = ':'
    · subst hc
      rw [strtok_colon, components_colon]
      exact ih
    · have htok : strtok (c :: path) =
          some (c :: path.takeWhile (· ≠ ':'), (path.dropWhile (· ≠ ':')).tail) := by
        unfold strtok
        rw [List.dropWhile_cons_of_neg (by simpa using hc)]
      have hmem : ∀ l : Str, ':' ∉ l → ':' ∉ c :: l := by
        intro l hl
        rw [List.mem_cons, not_or]
        exact ⟨Ne.symm hc, hl⟩
      rw [htok]
      show components (c :: path) = _
      rcases takeWhile_append_rest path with ⟨hno, htake, hdrop⟩ | ⟨rest, hdrop, hp⟩
      · rw [htake, hdrop, components, List.splitOn_eq_singleton (hmem path hno),
          List.filter_cons_of_pos (by simp)]
        rfl
      · have hsplit : (c :: path).splitOn ':' =
            (c :: path.takeWhile (· ≠ ':')) :: rest.splitOn ':' := by
          conv_lhs => rw [hp]
          exact List.splitOn_append_cons_self_of_not_mem (hmem _ (not_mem_takeWhile path)) rest
        rw [hdrop, components, hsplit, List.filter_cons_of_pos (by simp)]
        rfl

theorem components_of_strtok_none {path : Str} (h : strtok path = none) :
    components path = [] := by
  have hspec := strtok_spec path
  rw [h] at hspec
  exact hspec

theorem components_of_strtok_some {path dir rest : Str} (h : strtok path = some (dir, rest)) :
    components path = dir :: components rest := by
  have hspec := strtok_spec path
  rw [h] at hspec
  exact hspec

/-- The loop of `resolve_command` takes the first component with a file that can be
executed. -/
theorem searchPath_eq (sys : Sys) (cmd path : Str) :
    searchPath sys cmd path =
      ((components path).map fun dir => snprintf 2048 (dir ++ '/' :: cmd)).find? (isExec sys) := by
  fun_induction searchPath sys cmd path with
  | case1 path h =>
    rw [components_of_strtok_none h]
    rfl
  | case2 path dir rest h fullPath hexec =>
    rw [components_of_strtok_some h, List.map_cons, List.find?_cons_of_pos hexec]
  | case3 path dir rest h fullPath hexec ih =>
    rw [components_of_strtok_some h, List.map_cons, List.find?_cons_of_neg hexec, ih]

/-- An unset `PATH` is searched like an empty one. -/
theorem searchPath_getD (sys : Sys) (cmd : Str) :
    (match sys.path with
      | none => none
      | some path => searchPath sys cmd path) = searchPath sys cmd (sys.path.getD []) := by
  cases sys.path with
  | none =>
    rw [searchPath_eq]
    rfl
  | some path => rfl

/-- The components of an unset `PATH`, too, are components of `PATH`. -/
theorem exists_of_mem_components {sys : Sys} {dir : Str}
    (h : dir ∈ components (sys.path.getD [])) :
    dir ≠ [] ∧ ∃ path, sys.path = some path ∧ dir ∈ path.splitOn ':' := by
  obtain ⟨hmem, hne⟩ := List.mem_filter.mp h
  have hne' : dir ≠ [] := by simpa using hne
  cases hpath : sys.path with
  | none =>
    rw [hpath] at hmem
    exact absurd (List.mem_singleton.mp hmem) hne'
  | some path =>
    rw [hpath] at hmem
    exact ⟨hne', path, rfl, hmem⟩

/-! ### Both walks find the same file -/

/-- A path that is built for a component means the same file in both functions. -/
theorem absolute_componentPath {cwd : AbsPath} {dir name : Str} (hne : dir ≠ [])
    (hfits : (cwd.path ++ '/' :: (dir ++ '/' :: name)).length < 4096) :
    absolute cwd (componentPath cwd.path name dir) = absolute cwd (dir ++ '/' :: name) := by
  have hhead : (dir ++ '/' :: name).head? = dir.head? := by
    cases dir with
    | nil => exact absurd rfl hne
    | cons c dir => rfl
  have hshort : (dir ++ '/' :: name).length < 4096 := by
    rw [List.length_append, List.length_cons] at hfits
    omega
  unfold componentPath
  rw [if_neg hne]
  by_cases hslash : dir.head? = some '/'
  · rw [if_neg (by simp [hslash]), snprintf_of_fits hshort]
  · have hcwd : (cwd.path ++ '/' :: (dir ++ '/' :: name)).head? = some '/' := by
      rw [List.head?_append, cwd.absolute]
      rfl
    rw [if_pos hslash, snprintf_of_fits hfits, absolute, if_pos hcwd, absolute, hhead,
      if_neg hslash]

/-- A name that is not in the working directory: `locate` finds nothing behind an
empty component either, so its first path comes from the components of `strtok`. -/
theorem head?_locateLoop {sys : Sys} {name : Str} (path : Str)
    (hfits : (sys.cwd.path ++ '/' :: name).length < 2048)
    (hnone : isExec sys (sys.cwd.path ++ '/' :: name) = false) :
    (locateLoop sys sys.cwd.path name path).head? =
      ((components path).map fun dir => componentPath sys.cwd.path name (dir.take 1023)).find?
        (isExec sys) := by
  rw [locateLoop_eq, List.head?_filter, components]
  induction path.splitOn ':' with
  | nil => rfl
  | cons dir dirs ih =>
    by_cases hdir : dir = []
    · subst hdir
      have hpath : componentPath sys.cwd.path name (([] : Str).take 1023) =
          sys.cwd.path ++ '/' :: name := by
        rw [List.take_nil, componentPath, if_pos rfl, snprintf_of_fits (by omega)]
      rw [List.map_cons, List.find?_cons_of_neg (by rw [hpath, hnone]; exact Bool.false_ne_true),
        List.filter_cons_of_neg (by simp), ih]
    · rw [List.filter_cons_of_pos (by simpa using hdir), List.map_cons, List.map_cons,
        List.find?_cons, List.find?_cons, ih]

/-- **`locate` predicts what is executed.**  For a name without a slash that does not
start with `%`, whatever `PATH` is and whichever files can be executed, as long as the
paths fit their buffers: `resolve_command` finds a file exactly when `locate` prints a
path, and the file it finds is the one that the first path names. -/
theorem locate_predicts (sys : Sys) (name : Str) (hslash : '/' ∉ name)
    (hpercent : name.head? ≠ some '%') (hcwd : sys.cwd.path.length < 1024)
    (hname : (sys.cwd.path ++ '/' :: name).length < 2048)
    (hpath : ∀ path, sys.path = some path → ∀ dir ∈ path.splitOn ':',
      dir.length ≤ 1023 ∧ (dir ++ '/' :: name).length < 2048) :
    ((resolveCommand sys name).isSome = true ↔ locatePaths sys name ≠ []) ∧
      ∀ file, resolveCommand sys name = some file →
        ∃ first rest, locatePaths sys name = first :: rest ∧
          absolute sys.cwd first = absolute sys.cwd file := by
  have hget : getcwd sys = some sys.cwd.path := if_pos hcwd
  have hcut : snprintf 2048 (sys.cwd.path ++ '/' :: name) = sys.cwd.path ++ '/' :: name :=
    snprintf_of_fits hname
  have hpct : decide (name.head? = some '%') = false := decide_eq_false hpercent
  unfold resolveCommand locatePaths inCwd
  rw [if_neg hslash, hget]
  simp only [hpct, Bool.false_eq_true, if_false, hcut, Option.getD_some]
  cases hexec : isExec sys (sys.cwd.path ++ '/' :: name) with
  | true =>
    -- the working directory comes first in both
    simp only [if_true, Option.isSome_some, Option.toList_some, List.singleton_append, ne_eq,
      reduceCtorEq, not_false_eq_true, true_and]
    intro file hfile
    exact ⟨_, _, rfl, by rw [Option.some.inj hfile]⟩
  | false =>
    simp only [Bool.false_eq_true, if_false, Option.toList_none, List.nil_append]
    rw [searchPath_getD, searchPath_eq]
    -- the two paths that are built for a component name one file
    have habs : ∀ dir ∈ components (sys.path.getD []),
        absolute sys.cwd (componentPath sys.cwd.path name (dir.take 1023)) =
          absolute sys.cwd (snprintf 2048 (dir ++ '/' :: name)) := by
      intro dir hdir
      obtain ⟨hne, path, hp, hmem⟩ := exists_of_mem_components hdir
      obtain ⟨hlen, hshort⟩ := hpath path hp dir hmem
      rw [List.take_of_length_le hlen, snprintf_of_fits hshort]
      apply absolute_componentPath hne
      rw [List.length_append, List.length_cons]
      omega
    have hhead := head?_locateLoop (sys.path.getD []) hname hexec
    obtain ⟨hnone, hsome⟩ := Lib.find?_map_congr (l := components (sys.path.getD []))
      (f := fun dir => snprintf 2048 (dir ++ '/' :: name))
      (g := fun dir => componentPath sys.cwd.path name (dir.take 1023))
      (p := isExec sys) (q := isExec sys)
      (fun dir hdir => congrArg sys.executable (habs dir hdir).symm)
    rw [← hhead] at hnone
    refine ⟨?_, ?_⟩
    · rw [← not_iff_not, Bool.not_eq_true, Option.isSome_eq_false_iff, Option.isNone_iff_eq_none,
        hnone, List.head?_eq_none_iff, not_not]
    · intro file hfile
      obtain ⟨dir, hdir, rfl, hfound⟩ := hsome file hfile
      rw [← hhead] at hfound
      obtain ⟨rest, hrest⟩ := List.head?_eq_some_iff.mp hfound
      exact ⟨_, rest, hrest, habs dir hdir⟩

/-- `PATH` with a leading, a doubled and a trailing colon and a relative component,
in which the name is found twice. -/
def twoFiles : Sys where
  cwd := ⟨"/w".toList, rfl, by decide⟩
  path := some ":bin::/usr/bin:".toList
  executable file := file = "/w/bin/ls".toList || file = "/usr/bin/ls".toList
  garbage := []

theorem locate_predicts_two :
    resolveCommand twoFiles "ls".toList = some "bin/ls".toList ∧
      ∃ first rest, locatePaths twoFiles "ls".toList = first :: rest ∧
        absolute twoFiles.cwd first = absolute twoFiles.cwd "bin/ls".toList := by
  have hresolve : resolveCommand twoFiles "ls".toList = some "bin/ls".toList := by
    decide +kernel
  refine ⟨hresolve, ?_⟩
  refine (locate_predicts twoFiles "ls".toList (by decide) (by decide) (by decide) (by decide)
    ?_).2 _ hresolve
  intro path hpath
  obtain rfl : ":bin::/usr/bin:".toList = path := Option.some.inj hpath
  decide +kernel

end Locate
end RuShell
