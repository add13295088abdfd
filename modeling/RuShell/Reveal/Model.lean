import RuShell.Hop.Model
import RuShell.Lib.FileTree
import RuShell.Lib.Lists

/-!
# The builtin `reveal`

`reveal_list_dir` of `c-shell/src/reveal.c` prints the entries of a directory in
the order of their names, and then, if it is asked to, calls itself on those that
are directories.  It passes the path of each of them along, built in a buffer of
4096 bytes, and separately the text that is printed in front of their entries.

The recursion of the source is over path names and not over the tree, and it need
not end; the model has the depth to which it is followed as an argument, and
returns `none` when that is not enough.

## Main definitions

* `shown`, `listedNames` — the entries that are listed, in order.
* `revealListDir` — the function: what each of its `printf` calls prints.
* `Calls` — which call makes which.
-/

namespace RuShell
namespace Reveal

open Lib
open Hop (snprintf)

/-- `MAX_PATH` -/
def maxPath : ℕ := 4096

/-- `MAX_ENTRIES` -/
def maxEntries : ℕ := 4096

/-- Where and how entries are listed. -/
structure Sys where
  tree : FileTree
  /-- The position of the working directory. -/
  cwd : List Name
  /-- `show_all` -/
  showAll : Bool

variable (sys : Sys)

/-- `opendir` and `readdir`: the names in the directory; `none` if it cannot be
opened. -/
def readDir (path : Str) : Option (List Name) :=
  match sys.tree.resolve sys.cwd path with
  | none => none
  | some pos =>
    match sys.tree.entries pos with
    | none => none
    | some names => some (".".toList :: "..".toList :: names)

/-- `stat(path, &st) == 0 && S_ISDIR(st.st_mode)` -/
def isDir (path : Str) : Bool :=
  match sys.tree.resolve sys.cwd path with
  | none => false
  | some pos => (sys.tree.entries pos).isSome

/-- The entries that the loop over `readdir` keeps. -/
def shown (showAll : Bool) (name : Name) : Bool :=
  !(name = ".".toList || name = "..".toList) && (showAll || name.head? ≠ some '.')

/-- `cmp(&a, &b) <= 0` -/
def cmpLe (a b : Name) : Bool := !decide (b < a)

/-- `names` after the loop over `readdir` and the call of `qsort`. -/
def sortedNames (names : List Name) : List Name :=
  ((names.filter (shown sys.showAll)).take maxEntries).mergeSort cmpLe

/-- The names that a call with this path lists, none if the directory cannot be
opened. -/
def listedNames (path : Str) : List Name := sortedNames sys ((readDir sys path).getD [])

/-- `fullpath` -/
def fullPath (path : Str) (name : Name) : Str := snprintf maxPath (path ++ '/' :: name)

/-- A name behind the prefix of its directory. -/
def displayed (displayPrefix : Str) (name : Name) : Str :=
  if displayPrefix = [] then name else displayPrefix ++ '/' :: name

/-- What is printed for one entry. -/
def line (recursive : Bool) (path displayPrefix : Str) (name : Name) : Str :=
  displayed displayPrefix name ++
    if isDir sys (fullPath path name) && recursive then "/\n".toList else "\n".toList

/-- `reveal_list_dir`: the texts that it prints, in order. -/
def revealListDir (recursive : Bool) : ℕ → Str → Str → Option (List Str)
  | 0, _, _ => none
  | fuel + 1, path, displayPrefix =>
    let names := listedNames sys path
    let lines := names.map (line sys recursive path displayPrefix)
    if recursive then do
      let below ← (names.filter fun name => isDir sys (fullPath path name)).mapM fun name =>
        revealListDir recursive fuel (fullPath path name)
          (snprintf maxPath (displayed displayPrefix name))
      return lines ++ below.flatten
    else some lines

/-- A call with the path `p` makes one with the path `q`. -/
def Calls (p q : Str) : Prop := ∃ name ∈ listedNames sys p, q = fullPath p name ∧ isDir sys q = true

/-- The directory `a` with the files `g` and `f` in it, and the file `b`. -/
def smallTree : FileTree where
  entries pos :=
    if pos = [] then some [['b'], ['a']]
    else if pos = [['a']] then some [['g'], ['f']]
    else none
  root := rfl
  listed pos name h := by
    split_ifs at h with hnil hone
    · simp at hnil
    · obtain ⟨rfl, hname⟩ | ⟨-, hname⟩ := List.append_eq_singleton_iff.mp hone
      · cases hname
        exact ⟨_, rfl, by decide⟩
      · cases hname
    · cases h
  nodup pos names h := by
    split_ifs at h <;> cases h <;> decide
  valid pos names h := by
    split_ifs at h <;> cases h <;> decide
  height := 1
  bounded pos h := by
    split_ifs at h with hnil hone
    · simp [hnil]
    · simp [hone]
    · cases h

/-- The working directory is the root of that tree. -/
def smallSys : Sys where
  tree := smallTree
  cwd := []
  showAll := false

/-! ### What is listed -/

variable {sys} {path : Str} {pos names : List Name} {name : Name}

theorem readDir_of_resolve (h : sys.tree.resolve sys.cwd path = some pos)
    (hdir : sys.tree.entries pos = some names) :
    readDir sys path = some (".".toList :: "..".toList :: names) := by
  unfold readDir
  rw [h]
  show (match sys.tree.entries pos with
    | none => none
    | some names => some (".".toList :: "..".toList :: names)) = _
  rw [hdir]

theorem isDir_of_resolve (h : sys.tree.resolve sys.cwd path = some pos) :
    isDir sys path = (sys.tree.entries pos).isSome := by
  rw [isDir, h]

/-- A directory is what has something to list. -/
theorem exists_of_mem_listedNames (h : name ∈ listedNames sys path) :
    ∃ pos names, sys.tree.resolve sys.cwd path = some pos ∧
      sys.tree.entries pos = some names ∧ name ∈ names ∧ shown sys.showAll name = true := by
  have hmem : name ∈ (((readDir sys path).getD []).filter (shown sys.showAll)).take maxEntries :=
    (List.mergeSort_perm _ _).mem_iff.mp h
  obtain ⟨hname, hshown⟩ := List.mem_filter.mp (List.mem_of_mem_take hmem)
  cases hpos : sys.tree.resolve sys.cwd path with
  | none => simp [readDir, hpos] at hname
  | some pos =>
    cases hnames : sys.tree.entries pos with
    | none => simp [readDir, hpos, hnames] at hname
    | some names =>
      rw [readDir_of_resolve hpos hnames, Option.getD_some, List.mem_cons, List.mem_cons] at hname
      refine ⟨pos, names, rfl, hnames, ?_, hshown⟩
      rcases hname with rfl | rfl | hname
      · exact absurd hshown (by simp [shown])
      · exact absurd hshown (by simp [shown])
      · exact hname

/-- A path that still fits its buffer. -/
theorem fullPath_of_fits (h : (path ++ '/' :: name).length < 4096) :
    fullPath path name = path ++ '/' :: name :=
  Hop.snprintf_of_fits h

/-- A path that does not fit fills the buffer. -/
theorem length_fullPath (h : 4096 ≤ (path ++ '/' :: name).length) :
    (fullPath path name).length = 4095 := by
  rw [fullPath, Hop.snprintf, List.length_take]
  show min 4095 _ = 4095
  omega

/-! ### One call -/

/-- The names whose directories are listed next. -/
def subdirs (sys : Sys) (path : Str) : List Name :=
  (listedNames sys path).filter fun name => isDir sys (fullPath path name)

theorem mem_subdirs :
    name ∈ subdirs sys path ↔
      name ∈ listedNames sys path ∧ isDir sys (fullPath path name) = true :=
  List.mem_filter

/-- A recursive call whose own calls return. -/
theorem revealListDir_succ {fuel : ℕ} {displayPrefix : Str} (out : Name → List Str)
    (h : ∀ name ∈ subdirs sys path, revealListDir sys true fuel (fullPath path name)
      (snprintf maxPath (displayed displayPrefix name)) = some (out name)) :
    revealListDir sys true (fuel + 1) path displayPrefix =
      some ((listedNames sys path).map (line sys true path displayPrefix) ++
        (subdirs sys path).flatMap out) := by
  rw [revealListDir]
  show (((subdirs sys path).mapM fun name => revealListDir sys true fuel (fullPath path name)
    (snprintf maxPath (displayed displayPrefix name))) >>= _) = _
  rw [mapM_eq_some h]
  show some (_ ++ ((subdirs sys path).map out).flatten) = _
  rw [List.flatMap_def]

/-- A call with nothing to list returns at once. -/
theorem revealListDir_of_nil (h : listedNames sys path = []) (fuel : ℕ) (displayPrefix : Str) :
    revealListDir sys true (fuel + 1) path displayPrefix = some [] := by
  have hsub : subdirs sys path = [] := by rw [subdirs, h]; rfl
  rw [revealListDir_succ (fun _ => []) (by rw [hsub]; nofun), h, hsub]
  rfl

/-- A recursive call one of whose own calls does not return. -/
theorem revealListDir_succ_eq_none {fuel : ℕ} {displayPrefix : Str}
    (hname : name ∈ subdirs sys path)
    (h : ∀ displayPrefix, revealListDir sys true fuel (fullPath path name) displayPrefix = none) :
    revealListDir sys true (fuel + 1) path displayPrefix = none := by
  rw [revealListDir]
  show (((subdirs sys path).mapM fun name => revealListDir sys true fuel (fullPath path name)
    (snprintf maxPath (displayed displayPrefix name))) >>= _) = _
  have hnone : ((subdirs sys path).mapM fun name => revealListDir sys true fuel
      (fullPath path name) (snprintf maxPath (displayed displayPrefix name))) = none :=
    mapM_eq_none hname (h _)
  rw [hnone]
  rfl

end Reveal
end RuShell
