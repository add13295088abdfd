import Mathlib.Logic.Relation
import RuShell.Reveal.Model

/-!
# Where the recursion of `reveal` ends

A path that fits its buffer names the child it was built for, so a call goes one
level down the tree.  A path that does not fit is cut off after 4095 bytes.  If
that leaves a part of a name, the next call is the last one on its way down; but
if it leaves nothing of the name, or if the path had 4095 bytes already, the path
names the directory it came from, and the calls never end.

## Main results

* `revealListDir_stuck` — under a path of 4094 bytes the listing does not end.
* `reveal_terminates` — **the recursive listing terminates** exactly if it never comes to
  a directory with something to list under a path of 4094 or 4095 bytes.
* `reveal_never_returns` — a tree with such a directory.
-/

namespace RuShell
namespace Reveal

open Lib Relation
open Hop (snprintf)

variable {sys : Sys} {path : Str} {pos : List Name}

/-- The path that is built for an entry leads to it, or fills the buffer. -/
theorem resolve_fullPath {name : Name} (hname : name ∈ listedNames sys path)
    (hpos : sys.tree.resolve sys.cwd path = some pos) :
    sys.tree.resolve sys.cwd (fullPath path name) = some (pos ++ [name]) ∨
      (fullPath path name).length = 4095 := by
  obtain ⟨pos', names, hpos', hnames, hmem, -⟩ := exists_of_mem_listedNames hname
  obtain rfl : pos = pos' := Option.some.inj (hpos.symm.trans hpos')
  have hok := sys.tree.valid pos names hnames name hmem
  rcases Nat.lt_or_ge (path ++ '/' :: name).length 4096 with hfits | hlong
  · left
    rw [fullPath_of_fits hfits, FileTree.resolve_child hpos hok.no_slash hfits,
      FileTree.step_of_mem hnames hmem]
  · exact .inr (length_fullPath hlong)

/-- A path under which something is listed can only be followed a bounded number of
levels down. -/
theorem revealListDir_isSome (n : ℕ) :
    ∀ path, (∀ pos, sys.tree.resolve sys.cwd path = some pos → sys.tree.height < pos.length + n) →
      (∀ q, ReflTransGen (Calls sys) path q → 4094 ≤ q.length → listedNames sys q = []) →
      ∀ fuel, n < fuel → ∀ displayPrefix,
        ∃ out, revealListDir sys true fuel path displayPrefix = some out := by
  induction n with
  | zero =>
    intro path hdeep _ fuel hfuel displayPrefix
    obtain ⟨fuel, rfl⟩ := Nat.exists_eq_add_of_lt hfuel
    rw [Nat.zero_add]
    -- below the deepest directory there is nothing to list
    refine ⟨[], revealListDir_of_nil ?_ fuel displayPrefix⟩
    rw [List.eq_nil_iff_forall_not_mem]
    intro name hname
    obtain ⟨pos, names, hpos, hnames, -⟩ := exists_of_mem_listedNames hname
    have hle := sys.tree.bounded pos (by rw [hnames]; rfl)
    have hlt := hdeep pos hpos
    omega
  | succ n ih =>
    intro path hdeep hroom fuel hfuel displayPrefix
    obtain ⟨fuel, rfl⟩ : ∃ k, fuel = k + 1 := ⟨fuel - 1, by omega⟩
    have hcalls : ∀ name ∈ subdirs sys path, ∀ displayPrefix,
        ∃ out, revealListDir sys true fuel (fullPath path name) displayPrefix = some out := by
      intro name hname displayPrefix
      obtain ⟨hlisted, hdir⟩ := mem_subdirs.mp hname
      have hcall : Calls sys path (fullPath path name) := ⟨name, hlisted, rfl, hdir⟩
      obtain ⟨pos, names, hpos, -⟩ := exists_of_mem_listedNames hlisted
      rcases resolve_fullPath hlisted hpos with hchild | hcut
      · -- one level further down
        apply ih (fullPath path name)
        · intro pos' hpos'
          obtain rfl : pos ++ [name] = pos' := Option.some.inj (hchild.symm.trans hpos')
          have hlt := hdeep pos hpos
          rw [List.length_append, List.length_singleton]
          omega
        · intro q hq
          exact hroom q (.head hcall hq)
        · omega
      · -- a path that has been cut off, with nothing to list
        have hnil : listedNames sys (fullPath path name) = [] :=
          hroom _ (.single hcall) (by omega)
        obtain ⟨fuel, rfl⟩ : ∃ k, fuel = k + 1 := ⟨fuel - 1, by omega⟩
        exact ⟨[], revealListDir_of_nil hnil fuel displayPrefix⟩
    refine ⟨_, revealListDir_succ (fun name => (revealListDir sys true fuel
      (fullPath path name) (snprintf maxPath (displayed displayPrefix name))).getD []) ?_⟩
    intro name hname
    obtain ⟨out, hout⟩ := hcalls name hname (snprintf maxPath (displayed displayPrefix name))
    rw [hout]
    rfl

/-! ### Where it does not end -/

/-- A path that is not changed by what is appended to it. -/
theorem revealListDir_loop (hlen : path.length = 4095) {name : Name}
    (hname : name ∈ listedNames sys path) :
    ∀ fuel displayPrefix, revealListDir sys true fuel path displayPrefix = none := by
  have hsame : fullPath path name = path := by
    show (path ++ '/' :: name).take 4095 = path
    rw [← hlen, List.take_left]
  obtain ⟨pos, names, hpos, hnames, -⟩ := exists_of_mem_listedNames hname
  have hsub : name ∈ subdirs sys path := by
    rw [mem_subdirs, hsame, isDir_of_resolve hpos, hnames]
    exact ⟨hname, rfl⟩
  intro fuel
  induction fuel with
  | zero => exact fun _ => rfl
  | succ fuel ih =>
    intro displayPrefix
    exact revealListDir_succ_eq_none hsub (by rwa [hsame])

/-- **Under a path of 4094 bytes the listing does not end**: the next path is the same
one with a slash behind it. -/
theorem revealListDir_stuck (hlen : path.length = 4094) {name : Name}
    (hname : name ∈ listedNames sys path) (fuel : ℕ) (displayPrefix : Str) :
    revealListDir sys true fuel path displayPrefix = none := by
  have hslash : fullPath path name = path ++ ['/'] := by
    show (path ++ '/' :: name).take 4095 = path ++ ['/']
    rw [List.take_append, hlen, List.take_of_length_le (by omega)]
    rfl
  obtain ⟨pos, names, hpos, hnames, -⟩ := exists_of_mem_listedNames hname
  have hresolve : sys.tree.resolve sys.cwd (path ++ ['/']) = some pos := by
    rw [FileTree.resolve_child hpos List.not_mem_nil (by simp; omega)]
    exact FileTree.step_nil (by rw [hnames]; rfl)
  have hlisted : listedNames sys (path ++ ['/']) = listedNames sys path := by
    rw [listedNames, listedNames, readDir_of_resolve hresolve hnames,
      readDir_of_resolve hpos hnames]
  have hsub : name ∈ subdirs sys path := by
    rw [mem_subdirs, hslash, isDir_of_resolve hresolve, hnames]
    exact ⟨hname, rfl⟩
  cases fuel with
  | zero => rfl
  | succ fuel =>
    apply revealListDir_succ_eq_none hsub
    rw [hslash]
    apply revealListDir_loop
    · rw [List.length_append, hlen]
      rfl
    · rw [hlisted]
      exact hname

/-- A call that returns has calls that return. -/
theorem returns_of_calls {q displayPrefix : Str} {fuel : ℕ} {out : List Str}
    (h : revealListDir sys true fuel path displayPrefix = some out) (hcall : Calls sys path q) :
    ∃ fuel displayPrefix out, revealListDir sys true fuel q displayPrefix = some out := by
  obtain ⟨name, hname, rfl, hdir⟩ := hcall
  cases fuel with
  | zero => cases h
  | succ fuel =>
    by_contra hnot
    rw [revealListDir_succ_eq_none (mem_subdirs.mpr ⟨hname, hdir⟩) fun displayPrefix =>
      Option.eq_none_iff_forall_ne_some.mpr fun out hout => hnot ⟨fuel, _, out, hout⟩] at h
    cases h

/-- **The recursive listing terminates**, from every path and in every tree, exactly if it
never comes to a directory with something to list under a path of 4094 or 4095 bytes. -/
theorem reveal_terminates (sys : Sys) (start displayPrefix : Str) :
    (∃ fuel out, revealListDir sys true fuel start displayPrefix = some out) ↔
      ∀ q, ReflTransGen (Calls sys) start q →
        q.length = 4094 ∨ q.length = 4095 → listedNames sys q = [] := by
  constructor
  · rintro ⟨fuel, out, hout⟩ q hq
    -- every call on the way to `q` returns
    have hreturns : ∃ fuel displayPrefix out,
        revealListDir sys true fuel q displayPrefix = some out := by
      induction hq with
      | refl => exact ⟨fuel, displayPrefix, out, hout⟩
      | tail _ hcall ih =>
        obtain ⟨fuel, displayPrefix, out, hout⟩ := ih
        exact returns_of_calls hout hcall
    obtain ⟨fuel, displayPrefix, out, hout⟩ := hreturns
    intro hlen
    rw [List.eq_nil_iff_forall_not_mem]
    intro name hname
    rcases hlen with hlen | hlen
    · rw [revealListDir_stuck hlen hname] at hout
      cases hout
    · rw [revealListDir_loop hlen hname] at hout
      cases hout
  · intro hroom
    refine ⟨sys.tree.height + 2, ?_⟩
    apply revealListDir_isSome (sys.tree.height + 1) start
    · intro pos _
      omega
    · intro q hq hlong
      rcases Nat.lt_or_ge q.length 4096 with hlt | hge
      · exact hroom q hq (by omega)
      · -- the system refuses such a path
        rw [List.eq_nil_iff_forall_not_mem]
        intro name hname
        obtain ⟨pos, names, hpos, -⟩ := exists_of_mem_listedNames hname
        have hlen := (FileTree.resolve_length hpos).2
        omega
    · omega

theorem reveal_terminates_small :
    ∃ fuel out, revealListDir smallSys true fuel "/".toList [] = some out := by
  apply (reveal_terminates smallSys "/".toList []).mpr
  -- two calls are made, with short paths
  have hshort : ∀ q, ReflTransGen (Calls smallSys) "/".toList q →
      q = "/".toList ∨ q = "//a".toList := by
    intro q hq
    induction hq with
    | refl => exact .inl rfl
    | tail _ hcall ih =>
      obtain ⟨name, hname, rfl, hdir⟩ := hcall
      obtain ⟨pos, names, hpos, hnames, hmem⟩ := exists_of_mem_listedNames hname
      rcases ih with rfl | rfl
      · obtain rfl : [] = pos := Option.some.inj hpos
        obtain rfl : [['b'], ['a']] = names := Option.some.inj hnames
        rcases List.mem_pair.mp hmem.1 with rfl | rfl
        · exact absurd hdir (by decide +kernel)
        · exact .inr rfl
      · obtain rfl : [['a']] = pos := Option.some.inj hpos
        obtain rfl : [['g'], ['f']] = names := Option.some.inj hnames
        rcases List.mem_pair.mp hmem.1 with rfl | rfl <;> exact absurd hdir (by decide +kernel)
  intro q hq hlen
  rcases hshort q hq with rfl | rfl <;> simp at hlen

/-- Fifteen names of 255 bytes and one of 253. -/
def deepNames : List Name := List.replicate 15 (List.replicate 255 'd') ++ [List.replicate 253 'e']

theorem deepNames_ok : ∀ c ∈ deepNames ++ [['f']], NameOk c := by decide +kernel

/-- Sixteen directories, each in the one before it, and a file in the last one. -/
def deepSys : Sys where
  tree := FileTree.chain deepNames ['f'] deepNames_ok
  cwd := []
  showAll := false

/-- **A listing that never returns**: the path of the last directory has 4094 bytes, and
there is a file in it. -/
theorem reveal_never_returns :
    deepSys.tree.resolve [] (FileTree.chainPath deepNames) = some deepNames ∧
    ¬ ∃ fuel out, revealListDir deepSys true fuel (FileTree.chainPath deepNames) [] = some out := by
  have hlen : (FileTree.chainPath deepNames).length = 4094 := by decide +kernel
  have hresolve : deepSys.tree.resolve [] (FileTree.chainPath deepNames) = some deepNames :=
    FileTree.resolve_chain deepNames_ok (by decide) (by omega) []
  refine ⟨hresolve, ?_⟩
  rintro ⟨fuel, out, hout⟩
  have hread : readDir deepSys (FileTree.chainPath deepNames) =
      some (".".toList :: "..".toList :: [['f']]) :=
    readDir_of_resolve hresolve (FileTree.chain_entries_last deepNames_ok)
  have hmem : ['f'] ∈ listedNames deepSys (FileTree.chainPath deepNames) := by
    rw [listedNames, hread]
    decide +kernel
  rw [revealListDir_stuck hlen hmem] at hout
  cases hout

end Reveal
end RuShell
