import RuShell.Lexer
import RuShell.Lib.Writing
import RuShell.Lib.Table
import Mathlib.Data.Prod.Lex
import Mathlib.Order.Hom.Basic

/-!
# What the redirection helpers copy

With input files the command reads from a pipe that a helper fills with their
contents; with output files it writes to a pipe that another helper empties into
all of them.  Both helpers of `c-shell/src/redirect.c` copy in pieces of 4096
bytes.  `write_all` goes on after a short or an interrupted write.  The loops
around it read `while ((n = read(...)) > 0)`, so they take an interrupted read for
the end: as the handler of `SIGINT` is installed without `SA_RESTART` and a
helper inherits it, what has not been read by then is lost.  The output files are
opened when the helper of the input files runs already, so with `< f > f` it may
find `f` empty.

## Main definitions

* `writeAll` — all of a buffer.
* `copyFile`, `relayInput` — the helper that feeds the command.
* `relayOutput` — the helper that the command feeds.
* `Redirected` — a command with its files; `stdin`, `written` — what it reads, and
  the output files at the end.
* `Redirected.Lossless` — the condition.

## Main results

* `writeAll_spec` — no byte is lost or written twice, whatever `write` does.
* `Live.Delivers.read` — what one call of a copying loop does.
* `relays_lossless` — **the command reads the files one after the other, whenever
  they are read, and every output file receives all that it writes, exactly if the
  condition holds**.
* `interrupted_read_loses` — an interrupted read loses the rest.
-/

namespace RuShell
namespace Relay

open Lib

/-- The size of `buf`. -/
def bufSize : ℕ := 4096

/-- `write_all`; the result says whether it returned 0. -/
def writeAll (fd : Writer Char) (buf : Str) : Writer Char × Bool :=
  if _ : buf = [] then (fd, true)
  else
    match _ : fd.write buf with
    | (.eintr, fd') => writeAll fd' buf
    | (.fail, fd') => (fd', false)
    | (.wrote n, fd') => writeAll fd' (buf.drop n)
termination_by fd.moods.length + buf.length
decreasing_by
  · have := (Writer.write_eintr ‹_›).2
    omega
  · exact Writer.write_left ‹_› ‹_›

/-- A file that may change while it is read: what it holds at each of the next
calls, the offset, and how these calls go.  When the moods are used up it changes
no more. -/
structure Live where
  view : ℕ → Str
  pos : ℕ
  moods : List Mood

/-- One call of `read` for at most `n` bytes. -/
def Live.read (f : Live) (n : ℕ) : ReadResult Char × Live :=
  let call := (⟨f.view 0, f.pos, f.moods⟩ : Reader Char).read n
  (call.1, ⟨if f.moods = [] then f.view else fun k => f.view (k + 1), call.2.pos, call.2.moods⟩)

/-- What a loop that reads to the end uses up. -/
def Live.left (f : Live) : ℕ := f.moods.length + ((f.view f.moods.length).length - f.pos)

theorem Live.read_left {f g : Live} {n : ℕ} {c : Char} {buf : Str}
    (h : f.read n = (.data (c :: buf), g)) : g.left < f.left := by
  obtain ⟨hr, rfl⟩ := Prod.mk.inj h
  cases hm : f.moods with
  | nil =>
    simp only [hm, Reader.read, Reader.advance, Reader.rest, ReadResult.data.injEq] at hr
    have hlen := congrArg List.length hr
    simp only [Live.left, hm, Reader.read, Reader.advance, Reader.rest, if_pos, hr]
    simp only [List.length_take, List.length_drop, List.length_cons, List.length_nil] at hlen ⊢
    omega
  | cons mood moods =>
    cases mood with
    | eintr | fail => simp [hm, Reader.read] at hr
    | upTo k =>
      simp only [Live.left, hm, Reader.read, Reader.advance, List.length_cons, reduceCtorEq,
        if_false]
      omega

/-- The loop of the helper over one input file. -/
def copyFile (file : Live) (pipe : Writer Char) : Writer Char :=
  match _ : file.read bufSize with
  | (.data (c :: buf), file') => copyFile file' (writeAll pipe (c :: buf)).1
  | (.data [], _) => pipe
  | (.eintr, _) => pipe
  | (.fail, _) => pipe
termination_by file.left
decreasing_by exact Live.read_left ‹_›

/-- The helper of `setup_input_redirection`: one file after the other. -/
def relayInput : List Live → Writer Char → Writer Char
  | [], pipe => pipe
  | file :: files, pipe => relayInput files (copyFile file pipe)

/-- One piece goes to every file. -/
def writeEach (outFds : List (Writer Char)) (buf : Str) : List (Writer Char) :=
  outFds.map fun fd => (writeAll fd buf).1

/-- The helper of `setup_output_redirection`. -/
def relayOutput (pipe : Live) (outFds : List (Writer Char)) : List (Writer Char) :=
  match _ : pipe.read bufSize with
  | (.data (c :: buf), pipe') => relayOutput pipe' (writeEach outFds (c :: buf))
  | (.data [], _) => outFds
  | (.eintr, _) => outFds
  | (.fail, _) => outFds
termination_by pipe.left
decreasing_by exact Live.read_left ‹_›

/-- An input file and how the reads from it will go. -/
structure Input (N : Type*) where
  name : N
  moods : List Mood

/-- An output file, whether it is redirected to by `>>`, and how the writes to it
will go. -/
structure Output (N : Type*) where
  name : N
  append : Bool
  moods : List Mood

/-- A command with its redirections. -/
structure Redirected (N : Type*) where
  /-- The files before the command. -/
  disk : N → Str
  inputs : List (Input N)
  pipeMoods : List Mood
  /-- All that the command writes. -/
  output : Str
  readMoods : List Mood
  outputs : List (Output N)
  distinct : (outputs.map Output.name).Nodup

namespace Redirected

variable {N : Type*} [DecidableEq N] (j : Redirected N)

/-- What a file holds when `open_output_files` has opened it: `O_APPEND` or
`O_TRUNC`. -/
def base (o : Output N) : Str := if o.append then j.disk o.name else []

/-- The output files at the end. -/
def written : List (Writer Char) :=
  relayOutput ⟨fun _ => j.output, 0, j.readMoods⟩ (j.outputs.map fun o => ⟨j.base o, o.moods⟩)

/-- What a file holds at a moment: before the output files are opened, and when
`t` bytes have been written to it.  The helper of the input files is forked
before, so it may read at any of them. -/
def during (name : N) : ℕ → Str
  | 0 => j.disk name
  | t + 1 =>
    match (j.outputs.zip j.written).find? (·.1.name = name) with
    | none => j.disk name
    | some (o, fd) => fd.written.take ((j.base o).length + t)

/-- What the command reads, if call `k` for input file `i` finds the file `name` at
the moment `clock name (i, k)`. -/
def stdin (clock : N → ℕ ×ₗ ℕ →o ℕ) : Str :=
  (relayInput (j.inputs.mapIdx fun i f =>
    ⟨fun k => j.during f.name (clock f.name (toLex (i, k))), 0, f.moods⟩) ⟨[], j.pipeMoods⟩).written

/-- No call fails, interruptions apart. -/
structure Calm : Prop where
  inputs : ∀ f ∈ j.inputs, Mood.fail ∉ f.moods
  pipe : Mood.fail ∉ j.pipeMoods
  read : Mood.fail ∉ j.readMoods
  outputs : ∀ o ∈ j.outputs, Mood.fail ∉ o.moods

end Redirected

/-- The most that the calls before the first interrupted one transfer. -/
def room : List Mood → ℕ
  | .upTo k :: moods => min (k + 1) bufSize + room moods
  | _ => 0

/-- If a call is interrupted, those before it have room for all of `l`. -/
def Unbroken (moods : List Mood) (l : Str) : Prop := .eintr ∈ moods → l.length ≤ room moods

instance (moods : List Mood) (l : Str) : Decidable (Unbroken moods l) :=
  inferInstanceAs (Decidable (_ → _))

/-- The condition: no read is interrupted before the last byte, and no input file
changes before it is read. -/
structure Redirected.Lossless {N : Type*} (j : Redirected N) : Prop where
  inputs : ∀ f ∈ j.inputs, Unbroken f.moods (j.disk f.name)
  output : j.outputs ≠ [] → Unbroken j.readMoods j.output
  /-- An input file that is an output file as well is not emptied, and what is
  written to it is not read again. -/
  shared : ∀ f ∈ j.inputs, ∀ o ∈ j.outputs, o.name = f.name →
    (o.append = true ∨ j.disk f.name = []) ∧
      (j.output = [] ∨ .eintr ∈ f.moods ∧ room f.moods = (j.disk f.name).length)

/-! ### Writing -/

/-- **`write_all` writes every byte once**, after short writes and interruptions. -/
theorem writeAll_spec (fd : Writer Char) (buf : Str) (hcalm : fd.Calm) :
    (writeAll fd buf).1.written = fd.written ++ buf ∧ (writeAll fd buf).1.Calm ∧
      (writeAll fd buf).2 = true := by
  fun_induction writeAll fd buf with
  | case1 fd => exact ⟨(List.append_nil _).symm, hcalm, rfl⟩
  | case2 fd buf hne fd' hwrite ih =>
    rw [← (Writer.write_eintr hwrite).1]
    exact ih (hcalm.write hwrite).2
  | case3 fd buf hne fd' hwrite => exact absurd rfl (hcalm.write hwrite).1
  | case4 fd buf hne n fd' hwrite ih =>
    obtain ⟨hwritten, hrest⟩ := ih (hcalm.write hwrite).2
    refine ⟨?_, hrest⟩
    rw [hwritten, (Writer.write_wrote hwrite).1, List.append_assoc, List.take_append_drop]

/-! ### Reading -/

/-- What a loop of reads with these moods transfers of `l`. -/
def kept (moods : List Mood) (l : Str) : Str :=
  if .eintr ∈ moods then l.take (room moods) else l

theorem kept_upTo (k : ℕ) (moods : List Mood) (l : Str) :
    kept (.upTo k :: moods) l =
      l.take (min (k + 1) bufSize) ++ kept moods (l.drop (min (k + 1) bufSize)) := by
  simp only [kept, room, List.mem_cons, reduceCtorEq, false_or]
  split
  · rw [List.take_add]
  · rw [List.take_append_drop]

theorem kept_length_le (moods : List Mood) (l : Str) : (kept moods l).length ≤ l.length := by
  unfold kept
  split
  · exact List.length_take_le' _ _
  · exact Nat.le_refl _

variable {moods : List Mood} {d l : Str}

theorem kept_eq_self_iff : kept moods l = l ↔ Unbroken moods l := by
  unfold kept Unbroken
  split <;> simp [*]

theorem unbroken_of_length (h : (kept moods l).length = l.length) : Unbroken moods l := by
  intro hm
  rw [kept, if_pos hm, List.length_take] at h
  omega

/-- A file that grows by `m` is read as it was exactly if nothing is added or the
loop is interrupted at its old end. -/
theorem kept_append_iff {m : Str} (hl : Unbroken moods l) :
    l.length ≤ (kept moods (l ++ m)).length ∧ ((kept moods (l ++ m)).length = l.length ↔
      m = [] ∨ .eintr ∈ moods ∧ room moods = l.length) := by
  unfold kept
  by_cases hm : Mood.eintr ∈ moods
  · have := hl hm
    rw [if_pos hm, List.length_take, List.length_append, ← List.length_eq_zero_iff]
    simp only [hm, true_and]
    omega
  · simp [hm]

theorem kept_append_eq {m : Str} (hl : Unbroken moods l)
    (h : m = [] ∨ .eintr ∈ moods ∧ room moods = l.length) : kept moods (l ++ m) = l := by
  rcases h with rfl | ⟨hm, hroom⟩
  · rw [List.append_nil, kept_eq_self_iff]
    exact hl
  · rw [kept, if_pos hm, hroom, List.take_left]

@[simp] theorem kept_empty (moods : List Mood) : kept moods [] = [] :=
  List.eq_nil_of_length_eq_zero (Nat.le_zero.mp (kept_length_le moods []))

/-- A call that finds `l` and a loop that would find `l'` transfer the same bytes, if
the whole loop would. -/
theorem kept_drop {m : ℕ} {l' : Str} (hl : l.take m ++ kept moods (l.drop m) = d)
    (hl' : l'.take m ++ kept moods (l'.drop m) = d) :
    kept moods (l'.drop (l.take m).length) = d.drop (l.take m).length := by
  have short : ∀ l : Str, l.length < m → l.take m ++ kept moods (l.drop m) = l := by
    intro l hlt
    rw [List.take_of_length_le hlt.le, List.drop_eq_nil_of_le hlt.le, kept_empty, List.append_nil]
  rcases Nat.lt_or_ge l.length m with hlt | hge
  · -- the call has met the end, and so would the loop
    obtain rfl := (short l hlt).symm.trans hl
    rcases Nat.lt_or_ge l'.length m with hlt' | hge'
    · obtain rfl := (short l' hlt').symm.trans hl'
      rw [List.take_of_length_le hlt.le, List.drop_length, kept_empty]
    · have := congrArg List.length hl'
      rw [List.length_append, List.length_take_of_le hge'] at this
      omega
  · rw [List.length_take_of_le hge]
    rcases Nat.lt_or_ge l'.length m with hlt' | hge'
    · have hlen := congrArg List.length (hl.trans ((short l' hlt').symm.trans hl').symm)
      rw [List.length_append, List.length_take_of_le hge] at hlen
      omega
    · rw [← hl', List.drop_left' (List.length_take_of_le hge')]

/-- Whenever the calls are made, they transfer `d`. -/
def Live.Delivers (f : Live) (d : Str) : Prop :=
  ∀ k, kept f.moods ((f.view k).drop f.pos) = d

/-- A transfer of `m` bytes from a file that holds `view 0`, and `view (next k)` at
the calls after it. -/
theorem transfer_spec (moods : List Mood) {view : ℕ → Str} {pos m : ℕ} (hm : 0 < m) (next : ℕ → ℕ)
    (hd : ∀ k, ((view k).drop pos).take m ++ kept moods (((view k).drop pos).drop m) = d) :
    ∃ rest, d = ((view 0).drop pos).take m ++ rest ∧
      Live.Delivers ⟨view ∘ next, pos + (((view 0).drop pos).take m).length, moods⟩ rest ∧
      (((view 0).drop pos).take m = [] → rest = []) := by
  have hd0 := hd 0
  refine ⟨_, hd0.symm, ?_, ?_⟩
  · intro k
    have hdrop := kept_drop hd0 (hd (next k))
    rw [← hd0, List.drop_left, List.drop_drop] at hdrop
    exact hdrop
  · intro hp
    rcases List.take_eq_nil_iff.mp hp with h0 | hnil
    · exact absurd h0 hm.ne'
    · rw [hnil, List.drop_nil, kept_empty]

/-- What a call says about `d`, which the loop transfers. -/
def After (d : Str) : ReadResult Char → Live → Prop
  | .data p, g => ∃ rest, d = p ++ rest ∧ g.Delivers rest ∧ Mood.fail ∉ g.moods ∧
      (p = [] → rest = [])
  | .eintr, _ => d = []
  | .fail, _ => False

/-- **One call** transfers the next bytes of what the loop transfers. -/
theorem Live.Delivers.read {f g : Live} {r : ReadResult Char}
    (hd : f.Delivers d) (hcalm : Mood.fail ∉ f.moods) (h : f.read bufSize = (r, g)) :
    After d r g := by
  obtain ⟨view, pos, moods⟩ := f
  obtain ⟨rfl, rfl⟩ := Prod.mk.inj h
  cases moods with
  | nil =>
    obtain ⟨rest, hp, hrest, hend⟩ := transfer_spec [] (m := bufSize) (by decide) id
      fun k => (List.take_append_drop _ _).trans (hd k)
    exact ⟨rest, hp, hrest, hcalm, hend⟩
  | cons mood moods =>
    cases mood with
    | eintr => exact (hd 0).symm
    | fail => exact hcalm List.mem_cons_self
    | upTo k =>
      obtain ⟨rest, hp, hrest, hend⟩ := transfer_spec moods (m := min (k + 1) bufSize)
        (Nat.lt_min.mpr ⟨Nat.succ_pos k, by decide⟩) (· + 1) fun i =>
          (kept_upTo k moods _).symm.trans (hd i)
      exact ⟨rest, hp, hrest, fun h => hcalm (List.mem_cons_of_mem _ h), hend⟩

/-! ### The helpers -/

/-- **One input file** goes into the pipe as far as the reads transfer it. -/
theorem copyFile_spec {file : Live} {pipe : Writer Char} (hd : file.Delivers d)
    (hfile : Mood.fail ∉ file.moods) (hpipe : pipe.Calm) :
    (copyFile file pipe).written = pipe.written ++ d ∧ (copyFile file pipe).Calm := by
  fun_induction copyFile file pipe generalizing d with
  | case1 file pipe c buf file' hread ih =>
    obtain ⟨rest, rfl, hrest, hfile', -⟩ := hd.read hfile hread
    obtain ⟨hwritten, hcalm, -⟩ := writeAll_spec pipe (c :: buf) hpipe
    obtain ⟨hcopy, hcalm'⟩ := ih hrest hfile' hcalm
    exact ⟨by rw [hcopy, hwritten, List.append_assoc], hcalm'⟩
  | case2 file pipe file' hread =>
    obtain ⟨rest, rfl, -, -, hend⟩ := hd.read hfile hread
    rw [hend rfl]
    exact ⟨(List.append_nil _).symm, hpipe⟩
  | case3 file pipe file' hread =>
    obtain rfl : d = [] := hd.read hfile hread
    exact ⟨(List.append_nil _).symm, hpipe⟩
  | case4 file pipe file' hread => exact (hd.read hfile hread).elim

theorem relayInput_spec {files : List Live} {pipe : Writer Char} (ds : List Str)
    (hd : List.Forall₂ Live.Delivers files ds) (hfiles : ∀ file ∈ files, Mood.fail ∉ file.moods)
    (hpipe : pipe.Calm) : (relayInput files pipe).written = pipe.written ++ ds.flatten := by
  induction hd generalizing pipe with
  | nil => exact (List.append_nil _).symm
  | cons hfile hrest ih =>
    rw [List.forall_mem_cons] at hfiles
    obtain ⟨hcopy, hcalm⟩ := copyFile_spec hfile hfiles.1 hpipe
    rw [relayInput, ih hfiles.2 hcalm, hcopy, List.append_assoc, List.flatten_cons]

/-- **Every output file** receives what the reads transfer. -/
theorem relayOutput_spec {pipe : Live} {outFds : List (Writer Char)}
    (hd : pipe.Delivers d) (hpipe : Mood.fail ∉ pipe.moods) (hout : ∀ fd ∈ outFds, fd.Calm) :
    (relayOutput pipe outFds).map Writer.written = outFds.map fun fd => fd.written ++ d := by
  fun_induction relayOutput pipe outFds generalizing d with
  | case1 pipe outFds c buf pipe' hread ih =>
    obtain ⟨rest, rfl, hrest, hpipe', -⟩ := hd.read hpipe hread
    have hcalm : ∀ fd ∈ writeEach outFds (c :: buf), fd.Calm := by
      intro fd hfd
      obtain ⟨fd₀, hmem, rfl⟩ := List.mem_map.mp hfd
      exact (writeAll_spec fd₀ (c :: buf) (hout fd₀ hmem)).2.1
    rw [ih hrest hpipe' hcalm, writeEach, List.map_map]
    refine List.map_congr_left fun fd hmem => ?_
    rw [Function.comp_apply, (writeAll_spec fd (c :: buf) (hout fd hmem)).1, List.append_assoc]
  | case2 pipe outFds pipe' hread =>
    obtain ⟨rest, rfl, -, -, hend⟩ := hd.read hpipe hread
    simp [hend rfl]
  | case3 pipe outFds pipe' hread =>
    obtain rfl : d = [] := hd.read hpipe hread
    simp
  | case4 pipe outFds pipe' hread => exact (hd.read hpipe hread).elim

namespace Redirected

variable {N : Type*} {j : Redirected N}

theorem written_eq (hcalm : j.Calm) : j.written.map Writer.written =
    j.outputs.map fun o => j.base o ++ kept j.readMoods j.output := by
  have hd : Live.Delivers ⟨fun _ => j.output, 0, j.readMoods⟩ (kept j.readMoods j.output) :=
    fun _ => rfl
  have hout : ∀ fd ∈ j.outputs.map fun o => (⟨j.base o, o.moods⟩ : Writer Char), fd.Calm := by
    intro fd hfd
    obtain ⟨o, hmem, rfl⟩ := List.mem_map.mp hfd
    exact hcalm.outputs o hmem
  rw [written, relayOutput_spec hd hcalm.read hout, List.map_map]
  rfl

theorem base_eq_disk {o : Output N} (h : o.append = true ∨ j.disk o.name = []) :
    j.base o = j.disk o.name := by
  unfold base
  rcases h with happend | hnil
  · rw [if_pos happend]
  · rw [hnil, ite_self]

/-- A command whose output is written whole. -/
theorem unbroken_of_written (hcalm : j.Calm)
    (hwritten : j.written.map Writer.written = j.outputs.map fun o => j.base o ++ j.output)
    (hne : j.outputs ≠ []) : Unbroken j.readMoods j.output := by
  obtain ⟨o, ho⟩ := List.exists_mem_of_ne_nil _ hne
  rw [written_eq hcalm] at hwritten
  exact kept_eq_self_iff.mp (List.append_cancel_left (List.map_inj_left.mp hwritten o ho))

variable [DecidableEq N]

/-- If the reads of each input file transfer `d f`, whenever they are made, the
command reads these bytes. -/
theorem stdin_eq (hcalm : j.Calm) {clock : N → ℕ ×ₗ ℕ →o ℕ} (d : Input N → Str)
    (hd : ∀ f ∈ j.inputs, ∀ i, kept f.moods (j.during f.name (clock f.name i)) = d f) :
    j.stdin clock = (j.inputs.map d).flatten := by
  refine (relayInput_spec (j.inputs.map d) ?_ ?_ ?_).trans (List.nil_append _)
  · refine List.forall₂_iff_get.mpr ⟨by simp, fun i hi hi' => ?_⟩
    rw [List.length_map] at hi'
    intro k
    simpa using hd _ (List.getElem_mem hi') (toLex (i, k))
  · intro file hfile
    obtain ⟨i, hi, rfl⟩ := List.mem_mapIdx.mp hfile
    exact hcalm.inputs _ (List.getElem_mem hi)
  · exact hcalm.pipe

/-- A file that the command does not write to does not change. -/
theorem during_of_not_output {name : N} (h : ∀ o ∈ j.outputs, o.name ≠ name) (t : ℕ) :
    j.during name t = j.disk name := by
  cases t with
  | zero => rfl
  | succ t =>
    have hfind : (j.outputs.zip j.written).find? (·.1.name = name) = none :=
      List.find?_eq_none.mpr fun e he => by simpa using h e.1 (List.of_mem_zip he).1
    simp only [during, hfind]

/-- An output file grows from what it held when it was opened. -/
theorem during_of_output (hcalm : j.Calm) {o : Output N} (ho : o ∈ j.outputs) (t : ℕ) :
    j.during o.name (t + 1) = j.base o ++ (kept j.readMoods j.output).take t := by
  have hwritten := written_eq hcalm
  have hlen : j.outputs.length = j.written.length := by
    simpa using (congrArg List.length hwritten).symm
  obtain ⟨i, hi, rfl⟩ := List.getElem_of_mem ho
  have hi' : i < j.written.length := hlen ▸ hi
  have hfd : j.written[i].written = j.base j.outputs[i] ++ kept j.readMoods j.output := by
    have := List.getElem_of_eq hwritten (by simpa using hi')
    rwa [List.getElem_map, List.getElem_map] at this
  have hmem : (j.outputs[i], j.written[i]) ∈ j.outputs.zip j.written :=
    List.mem_iff_getElem.mpr ⟨i, by simp [hi, hi'], List.getElem_zip⟩
  have hnodup : ((j.outputs.zip j.written).map (Output.name ∘ Prod.fst)).Nodup := by
    rw [← List.map_map, List.map_fst_zip hlen.le]
    exact j.distinct
  have hfind := find?_of_nodup_map (p := fun e => e.1.name = j.outputs[i].name) hnodup hmem
    (decide_eq_true rfl) fun e _ he => of_decide_eq_true he
  simp only [during, hfind, hfd]
  rw [List.take_length_add_append]

/-- Lists of pieces of which none is longer than its counterpart, with the same
bytes in all. -/
theorem length_eq_of_flatten_eq {α : Type*} {f g : α → Str} {l : List α}
    (hle : ∀ a ∈ l, (f a).length ≤ (g a).length)
    (h : (l.map f).flatten = (l.map g).flatten) : ∀ a ∈ l, (f a).length = (g a).length := by
  have hsum := congrArg List.length h
  rw [List.length_flatten, List.length_flatten, List.map_map, List.map_map] at hsum
  intro a ha
  by_contra hne
  exact absurd hsum (List.sum_lt_sum _ _ hle ⟨a, ha, lt_of_le_of_ne (hle a ha) hne⟩).ne

/-- A file as an input is no output file, or one of them. -/
theorem output_or_not (j : Redirected N) (name : N) :
    (∀ o ∈ j.outputs, o.name ≠ name) ∨ ∃ o ∈ j.outputs, o.name = name := by
  by_cases h : ∃ o ∈ j.outputs, o.name = name
  · exact .inr h
  · exact .inl fun o ho heq => h ⟨o, ho, heq⟩

/-- What the reads of an input file transfer, whenever they are made. -/
theorem Lossless.kept_during (hl : j.Lossless) (hcalm : j.Calm) {f : Input N} (hf : f ∈ j.inputs)
    (t : ℕ) : kept f.moods (j.during f.name t) = j.disk f.name := by
  have hin := hl.inputs f hf
  rcases output_or_not j f.name with hno | ⟨o, ho, hname⟩
  · rw [during_of_not_output hno, kept_eq_self_iff.mpr hin]
  obtain ⟨hold, hstop⟩ := hl.shared f hf o ho hname
  cases t with
  | zero => exact kept_eq_self_iff.mpr hin
  | succ t =>
    rw [← hname] at hold hin hstop ⊢
    rw [during_of_output hcalm ho, base_eq_disk hold]
    refine kept_append_eq hin (hstop.imp_left fun hnil => ?_)
    rw [hnil, kept_empty, List.take_nil]

section Fed

variable (hcalm : j.Calm)
  (hstdin : ∀ clock, j.stdin clock = (j.inputs.map fun f => j.disk f.name).flatten)
include hcalm hstdin

/-- All reads may be made at one moment. -/
theorem flatten_kept (t : ℕ) : (j.inputs.map fun f => kept f.moods (j.during f.name t)).flatten =
    (j.inputs.map fun f => j.disk f.name).flatten := by
  rw [← hstdin fun _ => OrderHom.const _ t]
  exact (stdin_eq hcalm _ fun f _ i => rfl).symm

variable {f : Input N} (hf : f ∈ j.inputs)
include hf

/-- All reads before the output files are opened. -/
theorem unbroken_of_stdin : Unbroken f.moods (j.disk f.name) :=
  unbroken_of_length (length_eq_of_flatten_eq (fun _ _ => kept_length_le _ _)
    (flatten_kept hcalm hstdin 0) f hf)

variable {o : Output N} (ho : o ∈ j.outputs) (hname : o.name = f.name)
include ho hname

/-- All reads when they have been opened and nothing is written. -/
theorem old_of_stdin : o.append = true ∨ j.disk f.name = [] := by
  have hshrunk : ∀ f ∈ j.inputs, (kept f.moods (j.during f.name 1)).length ≤
      (j.disk f.name).length := by
    intro f hf
    refine (kept_length_le _ _).trans ?_
    rcases output_or_not j f.name with hno | ⟨o, ho, hname⟩
    · rw [during_of_not_output hno]
    · rw [← hname, during_of_output hcalm ho 0, List.take_zero, List.append_nil, base]
      split
      · exact Nat.le_refl _
      · exact Nat.zero_le _
  have hlen := length_eq_of_flatten_eq hshrunk (flatten_kept hcalm hstdin 1) f hf
  rw [← hname, during_of_output hcalm ho 0, List.take_zero, List.append_nil, base] at hlen
  cases happend : o.append with
  | true => exact .inl rfl
  | false =>
    rw [happend, if_neg Bool.false_ne_true, kept_empty] at hlen
    exact .inr (hname ▸ List.eq_nil_of_length_eq_zero hlen.symm)

variable (hout : j.outputs ≠ [] → Unbroken j.readMoods j.output)
include hout

theorem during_end : j.during f.name (j.output.length + 1) = j.disk f.name ++ j.output := by
  have hold := old_of_stdin hcalm hstdin hf ho hname
  have hkept := kept_eq_self_iff.mpr (hout (List.ne_nil_of_mem ho))
  rw [← hname, during_of_output hcalm ho, hkept, List.take_length, base_eq_disk (hname ▸ hold)]

/-- All reads when everything is written. -/
theorem stops_of_stdin :
    j.output = [] ∨ .eintr ∈ f.moods ∧ room f.moods = (j.disk f.name).length := by
  have hgrown : ∀ f ∈ j.inputs, (j.disk f.name).length ≤
      (kept f.moods (j.during f.name (j.output.length + 1))).length := by
    intro f hf
    have hin := unbroken_of_stdin hcalm hstdin hf
    rcases output_or_not j f.name with hno | ⟨o, ho, hname⟩
    · rw [during_of_not_output hno, kept_eq_self_iff.mpr hin]
    · rw [during_end hcalm hstdin hf ho hname hout]
      exact (kept_append_iff hin).1
  have hlen := length_eq_of_flatten_eq hgrown (flatten_kept hcalm hstdin _).symm f hf
  rw [during_end hcalm hstdin hf ho hname hout] at hlen
  exact (kept_append_iff (unbroken_of_stdin hcalm hstdin hf)).2.mp hlen.symm

end Fed

/-- **The relays are lossless exactly if** no read is interrupted before the last
byte, and no input file is an output file that is emptied or read further than its
old contents.  The reads may be short, and the writes short or interrupted. -/
theorem relays_lossless (j : Redirected N) (hcalm : j.Calm) :
    ((∀ clock, j.stdin clock = (j.inputs.map fun f => j.disk f.name).flatten) ∧
      j.written.map Writer.written = j.outputs.map fun o =>
        (if o.append then j.disk o.name else []) ++ j.output) ↔ j.Lossless := by
  constructor
  · rintro ⟨hstdin, hwritten⟩
    have hout := unbroken_of_written hcalm hwritten
    refine ⟨fun f hf => unbroken_of_stdin hcalm hstdin hf, hout, fun f hf o ho hname => ?_⟩
    exact ⟨old_of_stdin hcalm hstdin hf ho hname, stops_of_stdin hcalm hstdin hf ho hname hout⟩
  · intro hl
    refine ⟨fun clock => stdin_eq hcalm _ fun f hf i => hl.kept_during hcalm hf _, ?_⟩
    rw [written_eq hcalm]
    refine List.map_congr_left fun o ho => ?_
    rw [kept_eq_self_iff.mpr (hl.output (List.ne_nil_of_mem ho)), base]

end Redirected

/-- Two input files and two output files, with short reads and interrupted
writes; the first input file is appended to and read to its old end. -/
theorem relays_lossless_two :
    let j : Redirected ℕ := ⟨fun n => if n = 0 then "ab".toList else "c".toList,
      [⟨0, [.upTo 0, .upTo 0, .eintr]⟩, ⟨1, [.upTo 7, .eintr]⟩], [.eintr, .upTo 0],
      "xyz".toList, [.upTo 1], [⟨0, true, [.eintr, .upTo 0]⟩, ⟨2, false, []⟩], by decide⟩
    (∀ clock, j.stdin clock = "abc".toList) ∧
      j.written.map Writer.written = ["abxyz".toList, "xyz".toList] := by
  intro j
  have hcalm : j.Calm := ⟨by decide, by decide, by decide, by decide⟩
  exact (Redirected.relays_lossless j hcalm).mpr ⟨by decide, by decide, by decide⟩

/-- **Bytes are lost**: of the file `ab` the command reads nothing if the first read
is interrupted, of its output `xyz` the file receives the first byte, and with
`< f > f` the file may be empty before it is read. -/
theorem interrupted_read_loses :
    (relayInput [⟨fun _ => "ab".toList, 0, [.eintr]⟩] ⟨[], []⟩).written = [] ∧
    (relayOutput ⟨fun _ => "xyz".toList, 0, [.upTo 0, .eintr]⟩ [⟨[], []⟩]).map Writer.written =
      ["x".toList] ∧
    (⟨fun _ => "ab".toList, [⟨0, []⟩], [], [], [], [⟨0, false, []⟩], by decide⟩ :
      Redirected ℕ).stdin (fun _ => OrderHom.const _ 1) = [] := by
  decide +kernel

end Relay
end RuShell
