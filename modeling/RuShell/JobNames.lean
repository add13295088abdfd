import RuShell.Redirect
import RuShell.Lib.CString

/-!
# The display names of jobs

`join_args` and `join_pipeline` of `c-shell/src/redirect.c` put the words of a command
line together in an array of the caller, which may be too small for them.  `Redirect`
has them on lists; here they are on arrays, with every access checked and the room
that is left computed in `size_t`.

Both cut after every piece, and `join_pipeline` cuts each stage to 255 characters
first.  What is left in the end is what one cut of the whole line would leave: what
has been cut to `n` characters can be extended and cut again, and the cut does not
look behind the first `n` characters of the extension.

## Main definitions

* `joinArgs`, `joinPipeline` — the functions on arrays; both are a `joinLoop`.
* `CStr.line`, `CStr.pipeline` — the command lines, in full.

## Main results

* `join_names_exact` — **the array holds the beginning of the command line that fits
  into it**, and nothing is written or read outside of it.
* `joinArgs_eq`, `joinPipeline_eq` — the functions of `Redirect` compute the same names.
-/

namespace RuShell
namespace JobNames

open Lib (CArray Pointer Fault Spells Returns chars strlen)
open RuShell.Segment (CommandStage)

/-- A C string: the characters before its terminator. -/
abbrev CStr := {s : Str // nul ∉ s}

namespace CStr

/-- The words of a command, joined with single spaces. -/
def line (args : List CStr) : Str := [' '].intercalate (args.map Subtype.val)

/-- The commands of a pipeline, joined with `" | "`. -/
def pipeline (stages : List (List CStr)) : Str := " | ".toList.intercalate (stages.map line)

end CStr

variable {outsize : ℕ}

/-! ### The functions -/

/-- `outsize - strlen(out) - 1`, in `size_t`. -/
def remaining (outsize len : ℕ) : ℕ := (((outsize : ℤ) - len - 1) % 2 ^ 64).toNat

/-- `strncat(out, p, outsize - strlen(out) - 1)` -/
def append (out : CArray outsize Char) (p : Pointer Char) :
    Except Fault (CArray outsize Char) := do
  let len ← strlen nul out
  Lib.strncat nul out p (remaining outsize len)

/-- The loops of `join_args` and `join_pipeline`, from round `i` on: what separates the
pieces, and where the text of a piece is. -/
def joinLoop {β : Type} (sep : Str) (piece : β → Except Fault (Pointer Char)) :
    ℕ → List β → CArray outsize Char → Except Fault (CArray outsize Char)
  | _, [], out => .ok out
  | i, b :: bs, out => do
    let out ← if 0 < i then append out (chars nul sep) else .ok out
    let p ← piece b
    let out ← append out p
    joinLoop sep piece (i + 1) bs out

/-- `join_args` -/
def joinArgs (args : List CStr) (out : CArray outsize Char) :
    Except Fault (CArray outsize Char) := do
  let out ← out.write 0 nul
  joinLoop [' '] (fun arg => .ok (chars nul arg.val)) 0 args out

/-- The array `stage_str` of `join_pipeline`. -/
def stageStr (args : List CStr) : Except Fault (Pointer Char) := do
  let stage : CArray 256 Char ← joinArgs args .blank
  .ok stage.read

/-- `join_pipeline` -/
def joinPipeline (stages : List (List CStr)) (out : CArray outsize Char) :
    Except Fault (CArray outsize Char) := do
  let out ← out.write 0 nul
  joinLoop " | ".toList stageStr 0 stages out

/-! ### Cutting once and cutting twice -/

section Cut

variable {n : ℕ} {s t x : Str}

theorem take_append_congr (h : s.take n = t.take n) : (x ++ s).take n = (x ++ t).take n := by
  have htake : ∀ u : Str, u.take (n - x.length) = (u.take n).take (n - x.length) := by
    intro u
    rw [List.take_take, Nat.min_eq_left (Nat.sub_le _ _)]
  rw [List.take_append, List.take_append, htake s, htake t, h]

/-- Extending what has been cut, as far as there is room, is cutting the extension. -/
theorem take_append_take (x s : Str) :
    x.take n ++ s.take (n - (x.take n).length) = (x ++ s).take n := by
  rw [List.take_append, List.length_take]
  congr 2
  omega

/-- What the pieces behind the first one add. -/
theorem intercalate_cons {β : Type} (sep : Str) (f : β → Str) (b : β) (bs : List β) :
    sep.intercalate ((b :: bs).map f) = f b ++ bs.flatMap fun b => sep ++ f b := by
  induction bs generalizing b with
  | nil => simp
  | cons c bs ih =>
    have hstep := ih c
    rw [List.map_cons] at hstep
    rw [List.map_cons, List.map_cons, List.intercalate_cons_cons, hstep, List.flatMap_cons,
      List.append_assoc, List.append_assoc]

end Cut

/-! ### The functions on arrays -/

section Arrays

variable {out : CArray outsize Char} {x s : Str} {p : Pointer Char}

theorem remaining_eq {len : ℕ} (hlen : len < outsize) (hsize : outsize ≤ 256) :
    remaining outsize len = outsize - 1 - len := by
  unfold remaining
  rw [Int.emod_eq_of_lt (by omega) (by omega)]
  omega

/-- One append: the text so far is extended, and cut. -/
theorem append_spells (hsize : outsize ≤ 256) (hout : Spells nul out.read (x.take (outsize - 1)))
    (hp : Spells nul p s) :
    Returns (append out p) fun b => Spells nul b.read ((x ++ s).take (outsize - 1)) := by
  have hlen := hout.length_lt
  unfold append
  rw [Lib.strlen_of_spells hout]
  change Returns (Lib.strncat nul out p (remaining outsize _)) _
  rw [remaining_eq hlen hsize, ← take_append_take]
  apply Lib.strncat_spells hout hp
  rw [List.length_take, List.length_take]
  rw [List.length_take] at hlen
  omega

variable {β : Type} {sep : Str} {piece : β → Except Fault (Pointer Char)} {f : β → Str}

/-- Where the text of a piece is: all of it, or as much as can matter. -/
def Yields (n : ℕ) (piece : β → Except Fault (Pointer Char)) (f : β → Str) : Prop :=
  ∀ b, Returns (piece b) fun p => ∃ s, Spells nul p s ∧ s.take n = (f b).take n

/-- One piece, without what separates it from the one before. -/
theorem append_piece (hsize : outsize ≤ 256) (hpiece : Yields (outsize - 1) piece f)
    (hout : Spells nul out.read (x.take (outsize - 1))) (b : β)
    {rest : CArray outsize Char → Except Fault (CArray outsize Char)}
    {P : CArray outsize Char → Prop}
    (hrest : ∀ o, Spells nul o.read ((x ++ f b).take (outsize - 1)) → Returns (rest o) P) :
    Returns (do let p ← piece b; let o ← append out p; rest o) P := by
  refine (hpiece b).bind fun p hp => ?_
  obtain ⟨s, hs, heq⟩ := hp
  refine (append_spells hsize hout hs).bind fun o ho => hrest o ?_
  rwa [← take_append_congr heq]

/-- The rounds behind the first one. -/
theorem joinLoop_spells (hsize : outsize ≤ 256) (hsep : nul ∉ sep)
    (hpiece : Yields (outsize - 1) piece f) {i : ℕ} (hi : 0 < i) (bs : List β)
    (hout : Spells nul out.read (x.take (outsize - 1))) :
    Returns (joinLoop sep piece i bs out) fun o =>
      Spells nul o.read ((x ++ bs.flatMap fun b => sep ++ f b).take (outsize - 1)) := by
  induction bs generalizing i x out with
  | nil =>
    rw [List.flatMap_nil, List.append_nil]
    exact .ok hout
  | cons b bs ih =>
    rw [joinLoop, if_pos hi]
    refine (append_spells hsize hout (Lib.spells_chars hsep)).bind fun o ho => ?_
    refine append_piece hsize hpiece ho b fun o' ho' => ?_
    have hrest := ih (Nat.succ_pos i) ho'
    rwa [List.append_assoc, List.append_assoc, ← List.append_assoc sep,
      ← List.flatMap_cons (f := fun b => sep ++ f b)] at hrest

/-- All rounds, on an array that has been emptied. -/
theorem joinLoop_zero_spells (hpos : 1 ≤ outsize) (hsize : outsize ≤ 256) (hsep : nul ∉ sep)
    (hpiece : Yields (outsize - 1) piece f) (bs : List β) (out : CArray outsize Char) :
    Returns (out.write 0 nul >>= joinLoop sep piece 0 bs) fun o =>
      Spells nul o.read ((sep.intercalate (bs.map f)).take (outsize - 1)) := by
  have hempty : Returns (out.write 0 nul) fun o =>
      Spells nul o.read (([] : Str).take (outsize - 1)) := by
    refine (Lib.reads_nil.write (b := out) hpos nul).mono fun o ho => ?_
    rw [List.take_nil]
    exact ⟨List.not_mem_nil, ho⟩
  refine hempty.bind fun o ho => ?_
  cases bs with
  | nil =>
    rw [List.map_nil]
    exact .ok ho
  | cons b bs =>
    rw [joinLoop, if_neg (lt_irrefl 0), intercalate_cons]
    refine append_piece (x := []) hsize hpiece ho b fun o' ho' => ?_
    exact joinLoop_spells hsize hsep hpiece Nat.one_pos bs ho'

theorem joinArgs_spells (hpos : 1 ≤ outsize) (hsize : outsize ≤ 256) (args : List CStr)
    (out : CArray outsize Char) :
    Returns (joinArgs args out) fun b =>
      Spells nul b.read ((CStr.line args).take (outsize - 1)) := by
  refine joinLoop_zero_spells hpos hsize (by decide) (fun arg => ?_) args out
  exact .ok ⟨arg.val, Lib.spells_chars arg.property, rfl⟩

/-- The first cut, to the 255 characters that `stage_str` has room for. -/
theorem yields_stageStr (hsize : outsize ≤ 256) : Yields (outsize - 1) stageStr CStr.line := by
  intro args
  have hjoin := joinArgs_spells (by decide) le_rfl args (.blank : CArray 256 Char)
  refine hjoin.bind fun b hb => .ok ⟨_, hb, ?_⟩
  rw [List.take_take]
  congr 1
  omega

theorem joinPipeline_spells (hpos : 1 ≤ outsize) (hsize : outsize ≤ 256)
    (stages : List (List CStr)) (out : CArray outsize Char) :
    Returns (joinPipeline stages out) fun b =>
      Spells nul b.read ((CStr.pipeline stages).take (outsize - 1)) :=
  joinLoop_zero_spells hpos hsize (by decide) (yields_stageStr hsize) stages out

/-- **The names of jobs are the beginnings of their command lines.**  Whatever the array
holds before, it holds afterwards as much of the line as there is room for, and its
terminator; no access leaves the array. -/
theorem join_names_exact (hpos : 1 ≤ outsize) (hsize : outsize ≤ 256) (args : List CStr)
    (stages : List (List CStr)) (out : CArray outsize Char) :
    Returns (joinArgs args out) (fun b =>
      Spells nul b.read ((CStr.line args).take (outsize - 1))) ∧
    Returns (joinPipeline stages out) fun b =>
      Spells nul b.read ((CStr.pipeline stages).take (outsize - 1)) :=
  ⟨joinArgs_spells hpos hsize args out, joinPipeline_spells hpos hsize stages out⟩

/-- `ls -l | wc`, in an array of six characters. -/
def lsWc : List (List CStr) :=
  [[⟨"ls".toList, by decide⟩, ⟨"-l".toList, by decide⟩], [⟨"wc".toList, by decide⟩]]

theorem join_names_exact_lsWc :
    Returns (joinArgs (lsWc.headD []) (.blank : CArray 6 Char)) (fun b =>
      Spells nul b.read "ls -l".toList) ∧
    Returns (joinPipeline lsWc (.blank : CArray 8 Char)) fun b =>
      Spells nul b.read "ls -l |".toList :=
  ⟨(join_names_exact (by decide) (by decide) (lsWc.headD []) lsWc .blank).1,
    (join_names_exact (by decide) (by decide) (lsWc.headD []) lsWc .blank).2⟩

end Arrays

/-! ### The functions on lists -/

section Lists

variable {x s : Str}

theorem strncat_take (outsize : ℕ) (x s : Str) :
    Redirect.strncat outsize (x.take (outsize - 1)) s = (x ++ s).take (outsize - 1) := by
  rw [Redirect.strncat, ← take_append_take, Nat.sub_right_comm]

theorem foldl_strncat {β : Type} {sep : Str} {g f : β → Str}
    (hg : ∀ b, (g b).take (outsize - 1) = (f b).take (outsize - 1)) (bs : List β) (x : Str) :
    bs.foldl (fun out b => Redirect.strncat outsize (Redirect.strncat outsize out sep) (g b))
      (x.take (outsize - 1)) = (x ++ bs.flatMap fun b => sep ++ f b).take (outsize - 1) := by
  induction bs generalizing x with
  | nil => rw [List.foldl_nil, List.flatMap_nil, List.append_nil]
  | cons b bs ih =>
    rw [List.foldl_cons, strncat_take, strncat_take, take_append_congr (hg b), ih,
      List.flatMap_cons, List.append_assoc, List.append_assoc, List.append_assoc]

/-- `join_args` on lists. -/
theorem joinArgs_eq (args : List Str) (outsize : ℕ) :
    Redirect.joinArgs args outsize = ([' '].intercalate args).take (outsize - 1) := by
  cases args with
  | nil => rw [Redirect.joinArgs, List.intercalate_nil, List.take_nil]
  | cons arg args =>
    have hfirst := strncat_take outsize [] arg
    have hline := intercalate_cons [' '] id arg args
    rw [List.take_nil, List.nil_append] at hfirst
    rw [List.map_id] at hline
    rw [Redirect.joinArgs, hfirst, hline]
    exact foldl_strncat (fun _ => rfl) args arg

/-- `join_pipeline` on lists. -/
theorem joinPipeline_eq (stages : List CommandStage) (hsize : outsize ≤ 256) :
    Redirect.joinPipeline stages outsize =
      (" | ".toList.intercalate (stages.map fun st => [' '].intercalate st.args)).take
        (outsize - 1) := by
  have hcut : ∀ st : CommandStage, (Redirect.joinArgs st.args 256).take (outsize - 1) =
      ([' '].intercalate st.args).take (outsize - 1) := by
    intro st
    rw [joinArgs_eq, List.take_take]
    congr 1
    omega
  cases stages with
  | nil => rw [Redirect.joinPipeline, List.map_nil, List.intercalate_nil, List.take_nil]
  | cons st stages =>
    have hfirst := strncat_take outsize [] (Redirect.joinArgs st.args 256)
    rw [List.take_nil, List.nil_append, hcut st] at hfirst
    rw [Redirect.joinPipeline, hfirst, intercalate_cons]
    exact foldl_strncat hcut stages _

end Lists

end JobNames
end RuShell
