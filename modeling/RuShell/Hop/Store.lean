import RuShell.Hop.Model

/-!
# What `hop` does to its store

`hop` takes its arguments from left to right.  An argument asks for no change,
or for one that succeeds, or it fails; whether the change was asked for by name,
by `~`, `..` or `-`, or found in the store itself, a success goes through
`change_directory`.  So one step law for that function gives what a command, and
a whole session, does to the store, to the working directory and to
`previous_dir`.

## Main definitions

* `argumentsOf` — the arguments of a command, `~` if there are none.
* `changes`, `sessionChanges` — the changes that succeed, as pairs of the
  directory that was left and the one that was reached.
* `freqOf` — the frequency the store has for a path.
* `Tally` — a state against the changes that led to it.

## Main results

* `ArgumentStep`, `argumentStep` — what one argument does.
* `hopLoop_append` — the arguments are taken from left to right.
* `Tally.change` — the step law.
* `hop_keeps_count` — **`hop` updates the store and the previous directory
  correctly**, as long as no frequency is 2147483647 when its directory is
  reached.
* `frequency_wraps` — one that is.
-/

namespace RuShell
namespace Hop

open Lib

variable {home : AbsPath} {s s' : Shell}

/-! ### One argument -/

/-- The argument asks for no change: `.`, or `-` before the first change. -/
def Idle (s : Shell) (argument : Str) : Prop :=
  argument = ".".toList ∨ argument = "-".toList ∧ s.previousDir = []

instance (s : Shell) (argument : Str) : Decidable (Idle s argument) :=
  inferInstanceAs (Decidable (_ ∨ _))

/-- What one argument does, whatever comes behind it: nothing, or one successful
change, or it fails and ends the command with the state it found. -/
inductive ArgumentStep (home : AbsPath) (a : Str × Env) (s : Shell) : Prop
  | idle : Idle s a.1 → (∀ rest, hopLoop home (a :: rest) s = hopLoop home rest s) →
      ArgumentStep home a s
  | changed {target : Str} {s' : Shell} : ¬ Idle s a.1 →
      changeDirectory home a.2 target s = some s' →
      (∀ rest, hopLoop home (a :: rest) s = hopLoop home rest s') → ArgumentStep home a s
  | failed : ¬ Idle s a.1 → (∀ rest, hopLoop home (a :: rest) s = (s, noSuchDirectory)) →
      ArgumentStep home a s

/-- A branch that calls `change_directory` and fails with it. -/
theorem ArgumentStep.of_change {a : Str × Env} (hidle : ¬ Idle s a.1) (target : Str)
    (hok : ∀ s', changeDirectory home a.2 target s = some s' →
      ∀ rest, hopLoop home (a :: rest) s = hopLoop home rest s')
    (hfail : changeDirectory home a.2 target s = none →
      ∀ rest, hopLoop home (a :: rest) s = (s, noSuchDirectory)) : ArgumentStep home a s := by
  cases hc : changeDirectory home a.2 target s with
  | none => exact .failed hidle (hfail hc)
  | some s' => exact .changed hidle hc (hok s' hc)

/-- **What one argument does.** -/
theorem argumentStep (home : AbsPath) (a : Str × Env) (s : Shell) : ArgumentStep home a s := by
  obtain ⟨argument, env⟩ := a
  by_cases hhome : argument = "~".toList
  · subst hhome
    apply ArgumentStep.of_change (by simp [Idle]) home.path
    · intro s' hc rest
      simp [hopLoop, hc]
    · intro hc rest
      simp [hopLoop, hc]
  by_cases hdot : argument = ".".toList
  · subst hdot
    refine .idle (.inl rfl) ?_
    intro rest
    rw [hopLoop, if_neg hhome, if_pos rfl]
  by_cases hup : argument = "..".toList
  · subst hup
    apply ArgumentStep.of_change (by simp [Idle]) "..".toList
    · intro s' hc rest
      rw [hopLoop, if_neg hhome, if_neg hdot, if_pos rfl, hc]
    · intro hc rest
      rw [hopLoop, if_neg hhome, if_neg hdot, if_pos rfl, hc]
  by_cases hback : argument = "-".toList
  · subst hback
    by_cases hprev : s.previousDir = []
    · refine .idle (.inr ⟨rfl, hprev⟩) ?_
      intro rest
      rw [hopLoop, if_neg hhome, if_neg hdot, if_neg hup, if_pos rfl, if_pos hprev]
    · apply ArgumentStep.of_change (by simp [Idle, hprev]) s.previousDir
      · intro s' hc rest
        rw [hopLoop, if_neg hhome, if_neg hdot, if_neg hup, if_pos rfl, if_neg hprev, hc]
      · intro hc rest
        rw [hopLoop, if_neg hhome, if_neg hdot, if_neg hup, if_pos rfl, if_neg hprev, hc]
  have hidle : ¬ Idle s argument := by
    rintro (h | ⟨h, -⟩)
    · exact hdot h
    · exact hback h
  -- by name: the change as it stands, then the one that the store proposes
  cases hc : changeDirectory home env argument s with
  | some s' =>
    refine .changed hidle hc ?_
    intro rest
    rw [hopLoop, if_neg hhome, if_neg hdot, if_neg hup, if_neg hback, hc]
  | none =>
    cases hbest : findBestMatch env.directoryExists argument s.hopps with
    | none =>
      refine .failed hidle ?_
      intro rest
      rw [hopLoop, if_neg hhome, if_neg hdot, if_neg hup, if_neg hback, hc, hbest]
    | some best =>
      apply ArgumentStep.of_change hidle best.path
      · intro s' hc' rest
        rw [hopLoop, if_neg hhome, if_neg hdot, if_neg hup, if_neg hback, hc, hbest]
        simp only [hc']
      · intro hc' rest
        rw [hopLoop, if_neg hhome, if_neg hdot, if_neg hup, if_neg hback, hc, hbest]
        simp only [hc']

/-- The arguments of a command: without any, it goes home. -/
def argumentsOf (env : Env) (arguments : List (Str × Env)) : List (Str × Env) :=
  if arguments = [] then [("~".toList, env)] else arguments

/-- A command is the loop over its arguments. -/
theorem hop_eq_hopLoop (home : AbsPath) (env : Env) (arguments : List (Str × Env)) (s : Shell) :
    hop home env arguments s = hopLoop home (argumentsOf env arguments) (loadOnce home s) := by
  unfold hop argumentsOf
  simp only
  split_ifs with h
  · rw [hopLoop, if_pos rfl]
    cases changeDirectory home env home.path (loadOnce home s) <;> rfl
  · rfl

/-- **The arguments are taken from left to right**, and the first one that fails
is the last one that is looked at. -/
theorem hopLoop_append (home : AbsPath) (as bs : List (Str × Env)) (s : Shell) :
    hopLoop home (as ++ bs) s =
      if (hopLoop home as s).2 = [] then hopLoop home bs (hopLoop home as s).1
      else hopLoop home as s := by
  induction as generalizing s with
  | nil => rfl
  | cons a as ih =>
    rw [List.cons_append]
    cases argumentStep home a s with
    | idle _ h | changed _ _ h => rw [h, h, ih]
    | failed _ h =>
      rw [h, h]
      rfl

/-- An argument that fails leaves the state as it is. -/
theorem hopLoop_singleton_of_fails {a : Str × Env} (h : (hopLoop home [a] s).2 ≠ []) :
    hopLoop home [a] s = (s, noSuchDirectory) := by
  cases argumentStep home a s with
  | idle _ ha | changed _ _ ha =>
    rw [ha] at h
    exact absurd rfl h
  | failed _ ha => exact ha []

/-! ### The changes that succeed -/

/-- The changes that succeed in a command: which directory was left, and which
one was reached. -/
def changes (home : AbsPath) : List (Str × Env) → Shell → List (Str × Str)
  | [], _ => []
  | a :: arguments, s =>
    if (hopLoop home [a] s).2 = [] then
      if Idle s a.1 then changes home arguments s
      else
        (s.cwd.path, (hopLoop home [a] s).1.cwd.path) ::
          changes home arguments (hopLoop home [a] s).1
    else []

/-- The commands of a session, each with what the system answers to it. -/
abbrev Commands := List (Env × List (Str × Env))

/-- The state after some commands. -/
def hops (home : AbsPath) (commands : Commands) (s : Shell) : Shell :=
  commands.foldl (fun s c => (hop home c.1 c.2 s).1) s

/-- The changes that succeed in some commands. -/
def sessionChanges (home : AbsPath) : Commands → Shell → List (Str × Str)
  | [], _ => []
  | c :: commands, s =>
    changes home (argumentsOf c.1 c.2) (loadOnce home s) ++
      sessionChanges home commands (hop home c.1 c.2 s).1

/-! ### The store -/

/-- The frequency of a path, 0 if it is not in the store. -/
def freqOf (hopps : List HopNode) (path : Str) : ℤ :=
  ((hopps.find? (·.path == path)).map fun n => n.freq.toInt).getD 0

theorem toInt_add_one {x : Int32} (h : x.toInt < 2 ^ 31 - 1) : (x + 1).toInt = x.toInt + 1 := by
  have hl := x.le_toInt
  rw [Int32.toInt_add]
  show (x.toInt + 1).bmod (2 ^ 32) = x.toInt + 1
  apply Int.bmod_eq_of_le
  · omega
  · omega

/-- The paths of the store after a visit: the new one may have come in front. -/
theorem paths_recordVisit {path : Str} (hfits : path.length < stringSize) (time : Int64)
    (hopps : List HopNode) :
    (recordVisit time path hopps).map HopNode.path =
      if path ∈ hopps.map HopNode.path then hopps.map HopNode.path
      else path :: hopps.map HopNode.path := by
  have hmem : (hopps.find? (·.path == path)).isSome = true ↔ path ∈ hopps.map HopNode.path := by
    simp
  unfold recordVisit
  simp only [hmem]
  split_ifs
  · exact map_updateFirst fun n _ => rfl
  · rw [List.map_cons, List.take_of_length_le (Nat.le_sub_one_of_lt hfits)]

/-- **A visit counts once**, for its own directory. -/
theorem freqOf_recordVisit {path : Str} (hfits : path.length < stringSize) (time : Int64)
    {hopps : List HopNode} (hroom : freqOf hopps path < 2 ^ 31 - 1) (other : Str) :
    freqOf (recordVisit time path hopps) other =
      freqOf hopps other + if other = path then 1 else 0 := by
  have htake : path.take (stringSize - 1) = path :=
    List.take_of_length_le (Nat.le_sub_one_of_lt hfits)
  unfold recordVisit
  split_ifs with hfound hother hother
  · -- the entry of the directory is the one that the search has found
    subst hother
    obtain ⟨n, hn⟩ := Option.isSome_iff_exists.mp hfound
    have hold : freqOf hopps other = n.freq.toInt := by rw [freqOf, hn]; rfl
    rw [hold] at hroom ⊢
    rw [← toInt_add_one hroom, freqOf, find?_updateFirst (by exact fun _ h => h), hn]
    rfl
  · rw [add_zero, freqOf, find?_updateFirst_of_disjoint]
    · rfl
    · intro n hn
      have hne : (n.path == other) = false := by
        rw [beq_eq_false_iff_ne, beq_iff_eq.mp hn]
        exact Ne.symm hother
      exact ⟨hne, hne⟩
  · subst hother
    have hnone : hopps.find? (·.path == other) = none := by simpa using hfound
    rw [htake]
    simp [freqOf, hnone]
  · rw [htake, add_zero, freqOf, List.find?_cons_of_neg (by simpa using Ne.symm hother)]
    rfl

/-! ### A state against the changes that led to it -/

/-- The state `s` after the changes `cs`, from the state `s₀`. -/
structure Tally (s₀ s : Shell) (cs : List (Str × Str)) : Prop where
  /-- The paths of the store are different. -/
  distinct : (s.hopps.map HopNode.path).Nodup
  /-- No path has disappeared. -/
  kept : ∀ path ∈ s₀.hopps.map HopNode.path, path ∈ s.hopps.map HopNode.path
  /-- Every frequency has grown by the number of arrivals. -/
  count : ∀ path, freqOf s.hopps path = freqOf s₀.hopps path + (cs.map Prod.snd).count path
  /-- The working directory is the one that was reached last. -/
  cwd : s.cwd.path = ((cs.getLast?).map Prod.snd).getD s₀.cwd.path
  /-- `previous_dir` is the one that was left last. -/
  previous : s.previousDir = ((cs.getLast?).map Prod.fst).getD s₀.previousDir

/-- The system leads to directories whose path `getcwd` can return. -/
def Env.Fits (env : Env) : Prop :=
  ∀ target dir, env.chdir target = some dir → dir.path.length < stringSize

/-- One successful change. -/
theorem Tally.change {s₀ s s' : Shell} {cs : List (Str × Str)} (h : Tally s₀ s cs) {env : Env}
    (henv : env.Fits) {target : Str} (hc : changeDirectory home env target s = some s')
    (hroom : freqOf s.hopps s'.cwd.path < 2 ^ 31 - 1) :
    Tally s₀ s' (cs ++ [(s.cwd.path, s'.cwd.path)]) ∧ s'.cwd.path.length < stringSize := by
  obtain ⟨currentDir, newDir, hcur, hnew, hprev, rfl, hrest⟩ := changeDirectory_cases hc
  have hfits : s'.cwd.path.length < stringSize := henv target _ hnew
  obtain ⟨hnone, -⟩ | ⟨newPath, files, hget, hhopps, -⟩ := hrest
  · rw [getcwd, if_pos hfits] at hnone
    cases hnone
  obtain ⟨rfl, -⟩ := getcwd_some hget
  obtain ⟨rfl, -⟩ := getcwd_some hcur
  have hpaths := paths_recordVisit hfits env.time s.hopps
  rw [← hhopps] at hpaths
  refine ⟨⟨?_, ?_, ?_, ?_, ?_⟩, hfits⟩
  · rw [hpaths]
    split_ifs with hmem
    · exact h.distinct
    · exact List.nodup_cons.mpr ⟨hmem, h.distinct⟩
  · intro path hpath
    rw [hpaths]
    split_ifs
    · exact h.kept path hpath
    · exact List.mem_cons_of_mem _ (h.kept path hpath)
  · intro path
    rw [hhopps, freqOf_recordVisit hfits env.time hroom, h.count, List.map_append,
      List.count_append, List.map_singleton, List.count_singleton]
    have heq : (s'.cwd.path == path) = decide (path = s'.cwd.path) := by
      rw [beq_eq_decide, decide_eq_decide]
      exact eq_comm
    rw [heq]
    push_cast
    rw [add_assoc]
    simp
  · simp
  · rw [hprev]
    simp

theorem loadOnce_of_initialized (h : s.isInitialized = true) : loadOnce home s = s := by
  rw [loadOnce, if_pos h]

theorem loadOnce_initialized (home : AbsPath) (s : Shell) :
    (loadOnce home s).isInitialized = true := by
  unfold loadOnce
  split_ifs with h
  · exact h
  · rfl

theorem changeDirectory_initialized {env : Env} {target : Str}
    (h : changeDirectory home env target s = some s') : s'.isInitialized = s.isInitialized := by
  unfold changeDirectory at h
  split at h
  · cases h
  · split at h
    · cases h
    · simp only at h
      split at h <;> (obtain rfl := Option.some.inj h; rfl)

theorem Tally.initial (h : (s.hopps.map HopNode.path).Nodup) : Tally s s [] where
  distinct := h
  kept _ hpath := hpath
  count _ := by simp
  cwd := rfl
  previous := rfl

/-- The changes of a command, from a state that is already accounted for. -/
theorem Tally.hopLoop {s₀ : Shell} (arguments : List (Str × Env))
    (henv : ∀ a ∈ arguments, a.2.Fits) :
    ∀ ⦃s : Shell⦄ ⦃cs : List (Str × Str)⦄, Tally s₀ s cs →
      (∀ path, freqOf s₀.hopps path +
        ((cs ++ changes home arguments s).map Prod.snd).count path ≤ 2 ^ 31 - 1) →
      Tally s₀ (Hop.hopLoop home arguments s).1 (cs ++ changes home arguments s) ∧
        (Hop.hopLoop home arguments s).1.isInitialized = s.isInitialized := by
  induction arguments with
  | nil =>
    intro s cs h _
    rw [changes, List.append_nil]
    exact ⟨h, rfl⟩
  | cons a arguments ih =>
    intro s cs h hroom
    have hrest := ih fun b hb => henv b (List.mem_cons_of_mem a hb)
    cases argumentStep home a s with
    | idle hidle hrun =>
      have hchanges : changes home (a :: arguments) s = changes home arguments s := by
        rw [changes, if_pos (by rw [hrun]; rfl), if_pos hidle]
      rw [hchanges] at hroom ⊢
      rw [hrun]
      exact hrest h hroom
    | @changed target s' hidle hc hrun =>
      have hchanges : changes home (a :: arguments) s =
          (s.cwd.path, s'.cwd.path) :: changes home arguments s' := by
        rw [changes, if_pos (by rw [hrun]; rfl), if_neg hidle, hrun]
        rfl
      rw [hchanges, List.append_cons] at hroom ⊢
      -- the arrival that comes now is one of those that there is room for
      have hnow : freqOf s.hopps s'.cwd.path < 2 ^ 31 - 1 := by
        have hall := hroom s'.cwd.path
        rw [List.map_append, List.map_append, List.count_append, List.count_append,
          List.map_singleton, List.count_singleton_self] at hall
        rw [h.count]
        push_cast at hall
        omega
      rw [hrun]
      obtain ⟨htally, hinit⟩ :=
        hrest (h.change (henv a List.mem_cons_self) hc hnow).1 hroom
      exact ⟨htally, hinit.trans (changeDirectory_initialized hc)⟩
    | failed hidle hrun =>
      have hchanges : changes home (a :: arguments) s = [] := by
        rw [changes, if_neg]
        rw [hrun]
        show noSuchDirectory ≠ []
        decide
      rw [hchanges, List.append_nil, hrun]
      exact ⟨h, rfl⟩

/-- The changes of a session. -/
theorem Tally.hops {s₀ : Shell} (home : AbsPath) (commands : Commands)
    (henv : ∀ c ∈ commands, ∀ env ∈ c.1 :: c.2.map Prod.snd, env.Fits) :
    ∀ ⦃s : Shell⦄ ⦃cs : List (Str × Str)⦄, Tally s₀ s cs → s.isInitialized = true →
      (∀ path, freqOf s₀.hopps path +
        ((cs ++ sessionChanges home commands s).map Prod.snd).count path ≤ 2 ^ 31 - 1) →
      Tally s₀ (Hop.hops home commands s) (cs ++ sessionChanges home commands s) := by
  induction commands with
  | nil =>
    intro s cs h _ _
    rw [sessionChanges, List.append_nil]
    exact h
  | cons c commands ih =>
    intro s cs h hinit hroom
    obtain ⟨env, arguments⟩ := c
    have hfits : ∀ a ∈ argumentsOf env arguments, a.2.Fits := by
      intro a ha
      apply henv _ List.mem_cons_self
      unfold argumentsOf at ha
      split_ifs at ha
      · rw [List.mem_singleton.mp ha]
        exact List.mem_cons_self
      · exact List.mem_cons_of_mem _ (List.mem_map_of_mem ha)
    rw [sessionChanges, loadOnce_of_initialized hinit, ← List.append_assoc] at hroom ⊢
    have hone : ∀ path, freqOf s₀.hopps path +
        ((cs ++ changes home (argumentsOf env arguments) s).map Prod.snd).count path ≤
          2 ^ 31 - 1 := by
      intro path
      have hall := hroom path
      rw [List.map_append, List.count_append] at hall
      push_cast at hall
      omega
    obtain ⟨htally, hinit'⟩ := h.hopLoop _ hfits hone
    have hhop : (hop home env arguments s).1 =
        (Hop.hopLoop home (argumentsOf env arguments) s).1 := by
      rw [hop_eq_hopLoop, loadOnce_of_initialized hinit]
    show Tally s₀ (Hop.hops home commands (hop home env arguments s).1) _
    rw [hhop] at hroom ⊢
    exact ih (fun c hc => henv c (List.mem_cons_of_mem _ hc)) htally (hinit'.trans hinit) hroom

/-- **`hop` updates the store and the previous directory correctly**: from every
store with different paths and every working directory, after any commands, as
long as `getcwd` succeeds and no frequency is 2147483647 when its directory is
reached once more. -/
theorem hop_keeps_count (home : AbsPath) (s : Shell) (commands : Commands)
    (hdistinct : ((loadOnce home s).hopps.map HopNode.path).Nodup)
    (hgetcwd : ∀ c ∈ commands, ∀ env ∈ c.1 :: c.2.map Prod.snd, env.Fits)
    (hroom : ∀ path, freqOf (loadOnce home s).hopps path +
      ((sessionChanges home commands (loadOnce home s)).map Prod.snd).count path ≤ 2 ^ 31 - 1) :
    Tally (loadOnce home s) (hops home commands (loadOnce home s))
        (sessionChanges home commands (loadOnce home s)) ∧
      (∀ env arguments s₁,
        hop home env arguments s₁ = hopLoop home (argumentsOf env arguments) (loadOnce home s₁)) ∧
      ∀ as a bs s₁, (hopLoop home as s₁).2 = [] →
        hopLoop home (as ++ a :: bs) s₁ =
          if (hopLoop home [a] (hopLoop home as s₁).1).2 = [] then
            hopLoop home bs (hopLoop home [a] (hopLoop home as s₁).1).1
          else ((hopLoop home as s₁).1, noSuchDirectory) := by
  refine ⟨?_, hop_eq_hopLoop home, ?_⟩
  · have hall := (Tally.initial hdistinct).hops home commands hgetcwd
      (loadOnce_initialized home s)
    rw [List.nil_append] at hall
    exact hall hroom
  · intro as a bs s₁ has
    rw [hopLoop_append, if_pos has, ← List.singleton_append, hopLoop_append]
    split_ifs with ha
    · rfl
    · exact hopLoop_singleton_of_fails ha

/-- A session whose store has been read, in the directory `/h`. -/
def stocked (hopps : List HopNode) : Shell := ⟨hopps, [], true, homeDir, fun _ => none⟩

/-- A directory to hop to. -/
def dirA : AbsPath := ⟨"/a".toList, rfl, by decide⟩

theorem towards_fits (dir : AbsPath) (h : dir.path.length < stringSize) (time : Int64) :
    (towards dir time).Fits := by
  intro target d hd
  simp only [towards] at hd
  split_ifs at hd
  obtain rfl := Option.some.inj hd
  exact h

/-- `hop /a . nowhere - `: one change, and the `-` is not reached. -/
theorem hop_keeps_count_one :
    Tally (stocked [⟨"/a".toList, 3, 5⟩])
      (hops homeDir [(towards dirA 7, [("/a".toList, towards dirA 7), (".".toList, towards dirA 7),
        ("nowhere".toList, towards dirA 7), ("-".toList, towards dirA 7)])]
        (stocked [⟨"/a".toList, 3, 5⟩]))
      [("/h".toList, "/a".toList)] := by
  have hchanges : sessionChanges homeDir
      [(towards dirA 7, [("/a".toList, towards dirA 7), (".".toList, towards dirA 7),
        ("nowhere".toList, towards dirA 7), ("-".toList, towards dirA 7)])]
      (stocked [⟨"/a".toList, 3, 5⟩]) = [("/h".toList, "/a".toList)] := by
    decide +kernel
  have h := hop_keeps_count homeDir (stocked [⟨"/a".toList, 3, 5⟩])
    [(towards dirA 7, [("/a".toList, towards dirA 7), (".".toList, towards dirA 7),
      ("nowhere".toList, towards dirA 7), ("-".toList, towards dirA 7)])]
    (by decide +kernel)
    (by
      have hfits := towards_fits dirA (by decide +kernel) 7
      intro c hc env henv
      obtain rfl := List.mem_singleton.mp hc
      simp only [List.map_cons, List.map_nil, List.mem_cons, List.not_mem_nil, or_false,
        or_self] at henv
      rw [henv]
      exact hfits)
    (by
      intro path
      have hone : freqOf [⟨"/a".toList, 3, 5⟩] path ≤ 3 := by
        unfold freqOf
        rw [List.find?_singleton]
        split <;> decide
      have hcount := List.count_le_length (a := path)
        (l := [("/h".toList, "/a".toList)].map Prod.snd)
      rw [show loadOnce homeDir (stocked [⟨"/a".toList, 3, 5⟩]) =
        stocked [⟨"/a".toList, 3, 5⟩] from rfl, hchanges]
      show freqOf [⟨"/a".toList, 3, 5⟩] path + _ ≤ _
      simp only [List.length_map, List.length_singleton] at hcount
      omega)
  exact hchanges ▸ h.1

/-- **The frequency wraps around**: the directory with the highest frequency an
`int` can hold becomes the one with the lowest. -/
theorem frequency_wraps :
    (hop homeDir (towards dirA 7) [("/a".toList, towards dirA 7)]
      (stocked [⟨"/a".toList, 2147483647, 5⟩])).1.hopps = [⟨"/a".toList, -2147483648, 7⟩] ∧
    changes homeDir [("/a".toList, towards dirA 7)] (stocked [⟨"/a".toList, 2147483647, 5⟩]) =
      [("/h".toList, "/a".toList)] := by
  decide +kernel

end Hop
end RuShell
