import Mathlib.Data.Char
import Mathlib.Data.List.Lex
import RuShell.Reveal.Model

/-!
# What a recursive `reveal` prints

The tour of a directory is its visible entries in the order of their names, and
behind them the tours of its subdirectories in that order.  `reveal_list_dir`
works on path names and on prefixes that it builds along the way; as long as all
of them fit their buffers, it prints one line for each entry of the tour.

## Main definitions

* `Reachable` — the entries that are reached through visible directories, by their
  names from the starting directory on.
* `tour` — all of them, in order.
* `join`, `entryLine` — the relative path of an entry, and the line for it.

## Main results

* `mem_tour`, `nodup_tour` — every reachable entry is in the tour once.
* `revealListDir_eq_tour` — the function prints the tour.
* `reveal_complete` — **the recursive listing is complete and ordered.**
-/

namespace RuShell
namespace Reveal

open Lib
open Hop (snprintf snprintf_of_fits)

variable (sys : Sys) (base : List Name)

/-! ### The tour of a directory -/

/-- The entries below `base` that are reached through visible directories. -/
inductive Reachable : List Name → Prop
  | start : Reachable []
  | entry {rel names : List Name} {name : Name} : Reachable rel →
      sys.tree.entries (base ++ rel) = some names → name ∈ names →
      shown sys.showAll name = true → Reachable (rel ++ [name])

/-- The visible names of a directory, in order. -/
def visibleNames (names : List Name) : List Name :=
  (names.filter (shown sys.showAll)).mergeSort cmpLe

/-- The visible entries of a directory, and behind them the tours of its
subdirectories; an entry that is not a directory has an empty tour. -/
def tour (rel : List Name) : List (List Name) :=
  match _h : sys.tree.entries (base ++ rel) with
  | none => []
  | some names =>
    (visibleNames sys names).map (fun name => rel ++ [name]) ++
      (visibleNames sys names).flatMap fun name => tour (rel ++ [name])
termination_by sys.tree.height + 1 - rel.length
decreasing_by
  have hle := sys.tree.bounded (base ++ rel) (by rw [‹sys.tree.entries (base ++ rel) = _›]; rfl)
  rw [List.length_append] at hle
  rw [List.length_append, List.length_singleton]
  omega

/-- A relative path. -/
def join (rel : List Name) : Str := ['/'].intercalate rel

/-- The line for an entry. -/
def entryLine (rel : List Name) : Str :=
  join rel ++ if (sys.tree.entries (base ++ rel)).isSome then "/\n".toList else "\n".toList

variable {sys base} {rel names : List Name} {name : Name}

theorem tour_of_none (h : sys.tree.entries (base ++ rel) = none) : tour sys base rel = [] := by
  rw [tour]
  split
  · rfl
  · next names h' => simp [h] at h'

theorem tour_of_some (h : sys.tree.entries (base ++ rel) = some names) :
    tour sys base rel = (visibleNames sys names).map (fun name => rel ++ [name]) ++
      (visibleNames sys names).flatMap fun name => tour sys base (rel ++ [name]) := by
  rw [tour]
  split
  · next h' => simp [h] at h'
  · next names' h' =>
    obtain rfl : names = names' := Option.some.inj (h.symm.trans h')
    rfl

theorem mem_visibleNames :
    name ∈ visibleNames sys names ↔ name ∈ names ∧ shown sys.showAll name = true := by
  rw [visibleNames, (List.mergeSort_perm _ _).mem_iff, List.mem_filter]

/-- The names are in the order of `strcmp`, each of them once. -/
theorem sorted_visibleNames (hnodup : names.Nodup) :
    (visibleNames sys names).Pairwise (· < ·) := by
  have hle : ∀ a b : Name, cmpLe a b = true ↔ a ≤ b := by
    intro a b
    rw [cmpLe, Bool.not_eq_true', decide_eq_false_iff_not, not_lt]
  have hsorted : (visibleNames sys names).Pairwise fun a b => cmpLe a b = true := by
    apply List.pairwise_mergeSort
    · intro a b c hab hbc
      rw [hle] at hab hbc ⊢
      exact hab.trans hbc
    · intro a b
      rw [Bool.or_eq_true, hle, hle]
      exact le_total a b
  have hdistinct : (visibleNames sys names).Nodup :=
    (List.mergeSort_perm _ _).nodup_iff.mpr (hnodup.filter _)
  refine (hsorted.and hdistinct).imp ?_
  rintro a b ⟨hab, hne⟩
  exact lt_of_le_of_ne ((hle a b).mp hab) hne

/-! ### Every reachable entry is in the tour once -/

theorem Reachable.nameOk (h : Reachable sys base rel) : ∀ c ∈ rel, NameOk c := by
  induction h with
  | start => exact fun c hc => absurd hc List.not_mem_nil
  | entry _ hnames hname _ ih =>
    intro c hc
    rcases List.mem_append.mp hc with hc | hc
    · exact ih c hc
    · rw [List.mem_singleton.mp hc]
      exact sys.tree.valid _ _ hnames _ hname

/-- On the way to an entry every directory is visible. -/
theorem Reachable.through {x rest : List Name} (h : Reachable sys base x)
    (hx : x = rel ++ name :: rest) :
    ∃ names, sys.tree.entries (base ++ rel) = some names ∧ name ∈ names ∧
      shown sys.showAll name = true := by
  induction h generalizing rest with
  | start => simp at hx
  | entry _ hnames hname hshown ih =>
    rcases List.eq_nil_or_concat rest with rfl | ⟨rest', last, rfl⟩
    · obtain ⟨rfl, hlast⟩ := List.append_inj' hx rfl
      obtain rfl := List.singleton_inj.mp hlast
      exact ⟨_, hnames, hname, hshown⟩
    · rw [List.concat_eq_append, ← List.cons_append, ← List.append_assoc] at hx
      obtain ⟨hrel, -⟩ := List.append_inj' hx rfl
      exact ih hrel

/-- What is in a tour comes below its directory. -/
theorem below_of_mem_tour {x : List Name} (h : x ∈ tour sys base rel) :
    ∃ name rest, x = rel ++ name :: rest := by
  fun_induction tour sys base rel with
  | case1 => cases h
  | case2 rel names hnames ih =>
    rcases List.mem_append.mp h with h | h
    · obtain ⟨name, -, rfl⟩ := List.mem_map.mp h
      exact ⟨name, [], rfl⟩
    · obtain ⟨name, -, h⟩ := List.mem_flatMap.mp h
      obtain ⟨name', rest, rfl⟩ := ih name h
      exact ⟨name, name' :: rest, by simp⟩

/-- **The tour of a directory has the reachable entries below it.** -/
theorem mem_tour {x : List Name} (hrel : Reachable sys base rel) :
    x ∈ tour sys base rel ↔ Reachable sys base x ∧ ∃ name rest, x = rel ++ name :: rest := by
  constructor
  · intro h
    refine ⟨?_, below_of_mem_tour h⟩
    fun_induction tour sys base rel with
    | case1 => cases h
    | case2 rel names hnames ih =>
      rcases List.mem_append.mp h with h | h
      · obtain ⟨name, hname, rfl⟩ := List.mem_map.mp h
        obtain ⟨hmem, hshown⟩ := mem_visibleNames.mp hname
        exact .entry hrel hnames hmem hshown
      · obtain ⟨name, hname, h⟩ := List.mem_flatMap.mp h
        obtain ⟨hmem, hshown⟩ := mem_visibleNames.mp hname
        exact ih name (.entry hrel hnames hmem hshown) h
  · rintro ⟨hx, name, rest, rfl⟩
    induction rest generalizing rel name with
    | nil =>
      obtain ⟨names, hnames, hmem, hshown⟩ := hx.through rfl
      rw [tour_of_some hnames]
      apply List.mem_append_left
      exact List.mem_map.mpr ⟨name, mem_visibleNames.mpr ⟨hmem, hshown⟩, rfl⟩
    | cons name' rest ih =>
      obtain ⟨names, hnames, hmem, hshown⟩ := hx.through rfl
      rw [tour_of_some hnames]
      apply List.mem_append_right
      refine List.mem_flatMap.mpr ⟨name, mem_visibleNames.mpr ⟨hmem, hshown⟩, ?_⟩
      rw [List.append_cons] at hx
      have hin := ih (.entry hrel hnames hmem hshown) name' hx
      rwa [List.append_assoc] at hin

/-- **No entry is in a tour twice.** -/
theorem nodup_tour (rel : List Name) : (tour sys base rel).Nodup := by
  fun_induction tour sys base rel with
  | case1 => exact List.nodup_nil
  | case2 rel names hnames ih =>
    have hdistinct : (visibleNames sys names).Nodup :=
      (sorted_visibleNames (sys.tree.nodup _ _ hnames)).imp ne_of_lt
    refine List.Nodup.append ?_ ?_ ?_
    · apply hdistinct.map
      intro a b hab
      exact List.singleton_inj.mp (List.append_cancel_left hab)
    · rw [List.nodup_flatMap]
      refine ⟨fun name _ => ih name, ?_⟩
      -- two tours share no entry, since the name behind `rel` differs
      refine hdistinct.imp ?_
      intro a b hab x hxa hxb
      obtain ⟨c, rest, rfl⟩ := below_of_mem_tour hxa
      obtain ⟨d, rest', hx⟩ := below_of_mem_tour hxb
      rw [List.append_assoc, List.append_assoc] at hx
      exact hab (List.cons.inj (List.append_cancel_left hx)).1
    · intro x hxa hxb
      obtain ⟨a, -, rfl⟩ := List.mem_map.mp hxa
      obtain ⟨b, -, hxb⟩ := List.mem_flatMap.mp hxb
      obtain ⟨c, rest, hx⟩ := below_of_mem_tour hxb
      have hlen := congrArg List.length hx
      simp only [List.length_append, List.length_cons, List.length_nil] at hlen
      omega

/-! ### The lines -/

@[simp] theorem join_singleton (name : Name) : join [name] = name := by simp [join]

theorem join_cons_cons (c d : Name) (rel : List Name) :
    join (c :: d :: rel) = c ++ '/' :: join (d :: rel) := by
  rw [join, List.intercalate_cons_cons, List.append_assoc]
  rfl

theorem join_ne_nil (hok : ∀ c ∈ rel, NameOk c) (hne : rel ≠ []) : join rel ≠ [] := by
  cases rel with
  | nil => exact absurd rfl hne
  | cons c rel =>
    have hc : c ≠ [] := (hok c List.mem_cons_self).ne_nil
    cases rel with
    | nil => rwa [join_singleton]
    | cons d rel =>
      rw [join_cons_cons]
      exact List.append_ne_nil_of_left_ne_nil hc _

theorem join_concat (hne : rel ≠ []) (name : Name) :
    join (rel ++ [name]) = join rel ++ '/' :: name := by
  induction rel with
  | nil => exact absurd rfl hne
  | cons c rel ih =>
    cases rel with
    | nil => rw [List.singleton_append, join_cons_cons, join_singleton, join_singleton]
    | cons d rel =>
      rw [List.cons_append, List.cons_append, join_cons_cons, join_cons_cons]
      rw [List.cons_append] at ih
      rw [ih (List.cons_ne_nil d rel), List.append_assoc, List.cons_append]

/-- The prefix of a directory in front of a name is the relative path of the entry. -/
theorem displayed_join (hok : ∀ c ∈ rel, NameOk c) (name : Name) :
    displayed (join rel) name = join (rel ++ [name]) := by
  by_cases hne : rel = []
  · subst hne
    rw [List.nil_append, join_singleton]
    exact if_pos rfl
  · rw [displayed, if_neg (join_ne_nil hok hne), join_concat hne]

theorem splitOn_join (hok : ∀ c ∈ rel, NameOk c) (hne : rel ≠ []) :
    (join rel).splitOn '/' = rel :=
  List.splitOn_intercalate '/' (fun c hc => (hok c hc).no_slash) hne

/-- A relative path does not end in a slash. -/
theorem join_slash_ne {x y : List Name} (hx : ∀ c ∈ x, NameOk c) (hy : ∀ c ∈ y, NameOk c)
    (hxne : x ≠ []) (hyne : y ≠ []) : join x ++ ['/'] ≠ join y := by
  intro h
  have hsplit := congrArg (List.splitOn '/') h
  rw [List.splitOn_append_cons_self, splitOn_join hx hxne, splitOn_join hy hyne] at hsplit
  have hmem : ([] : Name) ∈ y := by
    rw [← hsplit]
    exact List.mem_append_right _ (List.mem_singleton_self _)
  exact (hy [] hmem).ne_nil rfl

/-- **Different entries have different lines.** -/
theorem entryLine_injective {x y : List Name} (hx : ∀ c ∈ x, NameOk c) (hy : ∀ c ∈ y, NameOk c)
    (hxne : x ≠ []) (hyne : y ≠ []) (h : entryLine sys base x = entryLine sys base y) : x = y := by
  have hslash : "/\n".toList = ['/'] ++ ['\n'] := rfl
  have hnewline : "\n".toList = ['\n'] := rfl
  have hjoin : join x = join y := by
    unfold entryLine at h
    rw [hslash, hnewline] at h
    split_ifs at h
    · exact List.append_cancel_right h
    · rw [← List.append_assoc] at h
      exact absurd (List.append_cancel_right h) (join_slash_ne hx hy hxne hyne)
    · rw [← List.append_assoc] at h
      exact absurd (List.append_cancel_right h).symm (join_slash_ne hy hx hyne hxne)
    · exact List.append_cancel_right h
  rw [← splitOn_join hx hxne, hjoin, splitOn_join hy hyne]

/-! ### The function prints the tour -/

/-- The path under which a directory is listed. -/
def pathTo (start : Str) (rel : List Name) : Str := start ++ rel.flatMap fun c => '/' :: c

theorem pathTo_concat (start : Str) (rel : List Name) (name : Name) :
    pathTo start (rel ++ [name]) = pathTo start rel ++ '/' :: name := by
  simp [pathTo]

theorem pathTo_eq_join (start : Str) (hne : rel ≠ []) :
    pathTo start rel = start ++ '/' :: join rel := by
  have h : ∀ c rel, (c :: rel).flatMap (fun c : Name => '/' :: c) = '/' :: join (c :: rel) := by
    intro c rel
    induction rel generalizing c with
    | nil => simp
    | cons d rel ih => rw [List.flatMap_cons, ih, join_cons_cons, List.cons_append]
  cases rel with
  | nil => exact absurd rfl hne
  | cons c rel => rw [pathTo, h]

/-- A directory with few enough entries is listed whole. -/
theorem listedNames_eq {path : Str} {pos : List Name}
    (hpos : sys.tree.resolve sys.cwd path = some pos) (hnames : sys.tree.entries pos = some names)
    (hcount : (names.filter (shown sys.showAll)).length ≤ 4096) :
    listedNames sys path = visibleNames sys names := by
  have hdots : (".".toList :: "..".toList :: names).filter (shown sys.showAll) =
      names.filter (shown sys.showAll) := by
    rw [List.filter_cons_of_neg (by simp [shown]), List.filter_cons_of_neg (by simp [shown])]
  rw [listedNames, readDir_of_resolve hpos hnames, Option.getD_some, sortedNames, hdots,
    List.take_of_length_le (show _ ≤ maxEntries from hcount), visibleNames]

/-- Entries without a tour can be passed over. -/
theorem flatMap_filter_of_nil {α β : Type*} {p : α → Bool} {f : α → List β} {l : List α}
    (h : ∀ a ∈ l, p a = false → f a = []) : (l.filter p).flatMap f = l.flatMap f := by
  induction l with
  | nil => rfl
  | cons a l ih =>
    have hrest := ih fun b hb => h b (List.mem_cons_of_mem a hb)
    cases hp : p a with
    | true => rw [List.filter_cons_of_pos hp, List.flatMap_cons, List.flatMap_cons, hrest]
    | false =>
      rw [List.filter_cons_of_neg (by simp [hp]), List.flatMap_cons, hrest,
        h a List.mem_cons_self hp, List.nil_append]

section Listing

variable {start : Str}
  (hlen : ∀ rel, Reachable sys base rel → rel ≠ [] → (start ++ '/' :: join rel).length < 4096)

include hlen

/-- The paths and texts that are built for an entry. -/
theorem built_for_entry (hrel : Reachable sys base rel)
    (hpos : sys.tree.resolve sys.cwd (pathTo start rel) = some (base ++ rel))
    (hnames : sys.tree.entries (base ++ rel) = some names)
    (hname : name ∈ visibleNames sys names) :
    fullPath (pathTo start rel) name = pathTo start (rel ++ [name]) ∧
      sys.tree.resolve sys.cwd (pathTo start (rel ++ [name])) = some (base ++ (rel ++ [name])) ∧
      snprintf maxPath (displayed (join rel) name) = join (rel ++ [name]) ∧
      line sys true (pathTo start rel) (join rel) name = entryLine sys base (rel ++ [name]) := by
  obtain ⟨hmem, hshown⟩ := mem_visibleNames.mp hname
  have hentry : Reachable sys base (rel ++ [name]) := .entry hrel hnames hmem hshown
  have hne : rel ++ [name] ≠ [] := by simp
  have hshort := hlen _ hentry hne
  rw [← pathTo_eq_join start hne, pathTo_concat] at hshort
  have hpath : fullPath (pathTo start rel) name = pathTo start (rel ++ [name]) := by
    rw [fullPath_of_fits hshort, pathTo_concat]
  have hresolve : sys.tree.resolve sys.cwd (pathTo start (rel ++ [name])) =
      some (base ++ (rel ++ [name])) := by
    rw [pathTo_concat, FileTree.resolve_child hpos (sys.tree.valid _ _ hnames _ hmem).no_slash
      hshort, FileTree.step_of_mem hnames hmem, List.append_assoc]
  refine ⟨hpath, hresolve, ?_, ?_⟩
  · rw [displayed_join hrel.nameOk]
    apply snprintf_of_fits
    have h := hlen _ hentry hne
    rw [List.length_append, List.length_cons] at h
    show (join (rel ++ [name])).length < 4096
    omega
  · rw [line, hpath, isDir_of_resolve hresolve, Bool.and_true, displayed_join hrel.nameOk]
    rfl

/-- **The function prints the tour.** -/
theorem revealListDir_eq_tour
    (hcount : ∀ rel names, Reachable sys base rel →
      sys.tree.entries (base ++ rel) = some names →
      (names.filter (shown sys.showAll)).length ≤ 4096) (fuel : ℕ) :
    ∀ rel names, Reachable sys base rel →
      sys.tree.resolve sys.cwd (pathTo start rel) = some (base ++ rel) →
      sys.tree.entries (base ++ rel) = some names → sys.tree.height < (base ++ rel).length + fuel →
      revealListDir sys true fuel (pathTo start rel) (join rel) =
        some ((tour sys base rel).map (entryLine sys base)) := by
  induction fuel with
  | zero =>
    intro rel names _ _ hnames hfuel
    have hle := sys.tree.bounded _ (by rw [hnames]; rfl)
    omega
  | succ fuel ih =>
    intro rel names hrel hpos hnames hfuel
    have hlisted : listedNames sys (pathTo start rel) = visibleNames sys names :=
      listedNames_eq hpos hnames (hcount rel names hrel hnames)
    have hbuilt : ∀ name ∈ visibleNames sys names, _ :=
      fun name hname => built_for_entry hlen hrel hpos hnames hname
    have hcalls : ∀ name ∈ subdirs sys (pathTo start rel),
        revealListDir sys true fuel (fullPath (pathTo start rel) name)
          (snprintf maxPath (displayed (join rel) name)) =
        some ((tour sys base (rel ++ [name])).map (entryLine sys base)) := by
      intro name hname
      obtain ⟨hin, hdir⟩ := mem_subdirs.mp hname
      rw [hlisted] at hin
      obtain ⟨hpath, hresolve, hdisplay, -⟩ := hbuilt name hin
      obtain ⟨hmem, hshown⟩ := mem_visibleNames.mp hin
      rw [hpath, isDir_of_resolve hresolve] at hdir
      obtain ⟨names', hnames'⟩ := Option.isSome_iff_exists.mp hdir
      rw [hpath, hdisplay]
      apply ih _ names' (.entry hrel hnames hmem hshown) hresolve hnames'
      rw [List.length_append, List.length_append, List.length_singleton]
      rw [List.length_append] at hfuel
      omega
    rw [revealListDir_succ _ hcalls, subdirs, hlisted, tour_of_some hnames, List.map_append,
      List.map_map, List.map_flatMap, flatMap_filter_of_nil]
    · congr 2
      apply List.map_congr_left
      intro name hname
      exact (hbuilt name hname).2.2.2
    · -- an entry that is not a directory has no tour
      intro name hname hdir
      obtain ⟨hpath, hresolve, -⟩ := hbuilt name hname
      rw [hpath, isDir_of_resolve hresolve, Option.isSome_eq_false_iff,
        Option.isNone_iff_eq_none] at hdir
      rw [tour_of_none hdir, List.map_nil]

/-- The first call; something that is not a directory has no entries to list. -/
theorem revealListDir_start (hstart : sys.tree.resolve sys.cwd start = some base)
    (hcount : ∀ rel names, Reachable sys base rel →
      sys.tree.entries (base ++ rel) = some names →
      (names.filter (shown sys.showAll)).length ≤ 4096) :
    revealListDir sys true (sys.tree.height + 1) start [] =
      some ((tour sys base []).map (entryLine sys base)) := by
  cases hnames : sys.tree.entries base with
  | none =>
    have hnil : listedNames sys start = [] := by
      rw [List.eq_nil_iff_forall_not_mem]
      intro name hname
      obtain ⟨pos, names, hpos, hnames', -⟩ := exists_of_mem_listedNames hname
      obtain rfl : base = pos := Option.some.inj (hstart.symm.trans hpos)
      rw [hnames] at hnames'
      cases hnames'
    rw [revealListDir_of_nil hnil, tour_of_none (by rwa [List.append_nil]), List.map_nil]
  | some names =>
    have h := revealListDir_eq_tour hlen hcount (sys.tree.height + 1) [] names .start
      (by rwa [pathTo, List.flatMap_nil, List.append_nil, List.append_nil])
      (by rwa [List.append_nil]) (by omega)
    rwa [pathTo, List.flatMap_nil, List.append_nil] at h

end Listing

/-- The tour of the starting directory visits what is reachable below it. -/
theorem mem_tour_nil : rel ∈ tour sys base [] ↔ Reachable sys base rel ∧ rel ≠ [] := by
  rw [mem_tour .start]
  refine and_congr_right fun _ => ?_
  cases rel with
  | nil | cons c rel => simp

/-- **No line is printed twice.** -/
theorem nodup_lines (sys : Sys) (base : List Name) :
    ((tour sys base []).map (entryLine sys base)).Nodup := by
  refine List.Nodup.map_on ?_ (nodup_tour [])
  intro x hx y hy h
  obtain ⟨hx, hxne⟩ := mem_tour_nil.mp hx
  obtain ⟨hy, hyne⟩ := mem_tour_nil.mp hy
  exact entryLine_injective hx.nameOk hy.nameOk hxne hyne h

/-- **The recursive listing is complete and ordered.**  If no directory has more than
4096 visible entries and no full path is longer than 4095 bytes, the listing ends; it
prints the tour of the starting directory, every reachable entry once, and nothing else;
and the tour of a directory is its entries in the order of `strcmp`, followed by the
tours of its subdirectories in that order. -/
theorem reveal_complete (sys : Sys) (start : Str) (base : List Name)
    (hstart : sys.tree.resolve sys.cwd start = some base)
    (hcount : ∀ rel names, Reachable sys base rel →
      sys.tree.entries (base ++ rel) = some names →
      (names.filter (shown sys.showAll)).length ≤ 4096)
    (hlen : ∀ rel, Reachable sys base rel → rel ≠ [] →
      (start ++ '/' :: join rel).length < 4096) :
    ∃ fuel out, revealListDir sys true fuel start [] = some out ∧
      out = (tour sys base []).map (entryLine sys base) ∧
      (∀ rel, Reachable sys base rel → rel ≠ [] → out.count (entryLine sys base rel) = 1) ∧
      (∀ text ∈ out, ∃ rel, Reachable sys base rel ∧ rel ≠ [] ∧ text = entryLine sys base rel) ∧
      ∀ rel names, sys.tree.entries (base ++ rel) = some names →
        ∃ sorted : List Name, sorted.Perm (names.filter (shown sys.showAll)) ∧
          sorted.Pairwise (· < ·) ∧
          tour sys base rel = sorted.map (fun name => rel ++ [name]) ++
            sorted.flatMap fun name => tour sys base (rel ++ [name]) := by
  have hrun := revealListDir_start hlen hstart hcount
  refine ⟨_, _, hrun, rfl, ?_, ?_, ?_⟩
  · intro rel hrel hne
    exact List.count_eq_one_of_mem (nodup_lines sys base)
      (List.mem_map_of_mem (mem_tour_nil.mpr ⟨hrel, hne⟩))
  · intro text htext
    obtain ⟨rel, hrel, rfl⟩ := List.mem_map.mp htext
    obtain ⟨hreach, hne⟩ := mem_tour_nil.mp hrel
    exact ⟨rel, hreach, hne, rfl⟩
  · intro rel names hnames
    exact ⟨visibleNames sys names, List.mergeSort_perm _ _,
      sorted_visibleNames (sys.tree.nodup _ _ hnames), tour_of_some hnames⟩

/-- Two entries in each directory. -/
theorem reveal_complete_small :
    ∃ fuel, revealListDir smallSys true fuel "/".toList [] =
      some ["a/\n".toList, "b\n".toList, "a/f\n".toList, "a/g\n".toList] := by
  have hentries : ∀ rel names, smallTree.entries rel = some names →
      rel = [] ∧ names = [['b'], ['a']] ∨ rel = [['a']] ∧ names = [['g'], ['f']] := by
    intro rel names h
    change (if rel = [] then _ else if rel = [['a']] then _ else none) = _ at h
    split_ifs at h with hnil hone
    · exact .inl ⟨hnil, (Option.some.inj h).symm⟩
    · exact .inr ⟨hone, (Option.some.inj h).symm⟩
  have hreach : ∀ rel, Reachable smallSys [] rel → rel ≠ [] →
      rel ∈ [[['a']], [['b']], [['a'], ['f']], [['a'], ['g']]] := by
    intro rel hrel hne
    cases hrel with
    | start => exact absurd rfl hne
    | entry _ hnames hname _ =>
      obtain ⟨rfl, rfl⟩ | ⟨rfl, rfl⟩ := hentries _ _ hnames
      · fin_cases hname <;> decide
      · fin_cases hname <;> decide
  obtain ⟨fuel, out, hrun, hout, -⟩ := reveal_complete smallSys "/".toList []
    (by decide +kernel)
    (by
      intro rel names _ hnames
      obtain ⟨-, rfl⟩ | ⟨-, rfl⟩ := hentries _ _ hnames
      · decide
      · decide)
    (by
      intro rel hrel hne
      have hmem := hreach rel hrel hne
      fin_cases hmem <;> decide)
  have hroot : visibleNames smallSys [['b'], ['a']] = [['a'], ['b']] := by
    rw [visibleNames, List.filter_eq_self.mpr (by decide), mergeSort_pair]
    decide
  have hsub : visibleNames smallSys [['g'], ['f']] = [['f'], ['g']] := by
    rw [visibleNames, List.filter_eq_self.mpr (by decide), mergeSort_pair]
    decide
  have htour : tour smallSys [] [] = [[['a']], [['b']], [['a'], ['f']], [['a'], ['g']]] := by
    have hfile : ∀ rel, smallTree.entries rel = none → tour smallSys [] rel = [] :=
      fun rel h => tour_of_none h
    have ha : tour smallSys [] [['a']] = [[['a'], ['f']], [['a'], ['g']]] := by
      have hsome : smallTree.entries [['a']] = some [['g'], ['f']] := rfl
      rw [tour_of_some hsome, hsub]
      simp [hfile [['a'], ['f']] rfl, hfile [['a'], ['g']] rfl]
    have hsome : smallTree.entries [] = some [['b'], ['a']] := rfl
    rw [tour_of_some hsome, hroot]
    simp [ha, hfile [['b']] rfl]
  refine ⟨fuel, ?_⟩
  rw [hrun, hout, htour]
  decide

end Reveal
end RuShell
