import RuShell.Control
import RuShell.Lib.Decimal

/-!
# The numbers in the arguments of `ping` and `resume`

Both commands read their numbers with `strtol` and keep them in an `int`.  `strtol`
skips white space, takes a sign and stops at `LONG_MAX`; the conversion to `int` keeps
the lowest 32 bits.  `ping` lets only digits through to it, `resume` anything that
`strtol` reads to the end.  For a number that fits its type, all of this is the number
that is written; for the others, it need not be.

## Main definitions

* `written` — the number that a string of digits denotes.
* `Reads` — the texts that `strtol` reads to the end.
* `Destination`, `pingKill` — the call of `kill` that `ping_command` makes.
* `PingExact`, `ResumeExact` — the arguments for which the difference does not matter.
* `ResumeForm` — the syntax of `resume`.

## Main results

* `ping_iff` — `ping` in a session, in terms of that call.
* `ping_hits_target` — **`ping` hits only its target** exactly if `PingExact` holds.
* `resumeRequest_iff` — what `resume` accepts.
* `resume_accepts_forms` — **`resume` accepts exactly its syntax** if and only if
  `ResumeExact` holds.
-/

namespace RuShell
namespace Control

open RuShell.Jobs (JobTables ProcEntry ProcGroup)

/-! ### Strings of digits -/

/-- The number that a string of digits denotes. -/
def written (num : Str) : ℕ := Nat.ofDigitChars 10 num 0

/-- One digit at least, and nothing but digits. -/
def IsNumeral (num : Str) : Prop := num ≠ [] ∧ ∀ c ∈ num, c.isDigit = true

theorem ofDigits_eq_written (num : Str) : ofDigits num = written num := by
  -- for the fold from any number
  have hfold : ∀ n : ℕ,
      num.foldl (fun (m : ℤ) c => 10 * m + (c.toNat - 48 : ℕ)) n = Nat.ofDigitChars 10 num n := by
    induction num with
    | nil =>
      intro n
      rfl
    | cons c num ih =>
      intro n
      rw [List.foldl_cons, Nat.ofDigitChars_cons, ← ih]
      push_cast
      rfl
  exact hfold 0

theorem isValidNonnegInt_iff (num : Str) : isValidNonnegInt num = true ↔ IsNumeral num := by
  simp [isValidNonnegInt, IsNumeral]

instance (num : Str) : Decidable (IsNumeral num) := decidable_of_iff _ (isValidNonnegInt_iff num)

/-- A digit is neither white space nor a sign. -/
theorem not_isSpace_of_isDigit {c : Char} (h : c.isDigit = true) :
    isSpace c = false ∧ c ≠ '+' ∧ c ≠ '-' := by
  obtain ⟨-, hminus, hplus⟩ := Lib.isspace_of_isDigit h
  have hlow : '0' ≤ c := by
    rw [Char.isDigit, Bool.and_eq_true, decide_eq_true_eq] at h
    exact h.1
  have hspace : c ≠ ' ' := by
    rintro rfl
    exact absurd h (by decide)
  have hcr : ¬ c ≤ '\r' := by
    intro hle
    exact absurd (Char.le_trans hlow hle) (by decide)
  exact ⟨by simp [isSpace, hspace, hcr], hplus, hminus⟩

/-- A text that `strtol` reads to the end: digits, with white space and a plus sign in front
of them. -/
def Reads (num : Str) (n : ℕ) : Prop :=
  ∃ space sign digits, num = space ++ (sign ++ digits) ∧ (∀ c ∈ space, isSpace c = true) ∧
    (sign = [] ∨ sign = ['+']) ∧ IsNumeral digits ∧ written digits = n

variable {num : Str}

theorem IsNumeral.reads (h : IsNumeral num) : Reads num (written num) :=
  ⟨[], [], num, rfl, by simp, .inl rfl, h, rfl⟩

/-- It is read as far as a `long` goes. -/
theorem Reads.strtol_eq {n : ℕ} (h : Reads num n) :
    strtol num = (min (2 ^ 63 - 1) (n : ℤ), []) := by
  obtain ⟨space, sign, digits, rfl, hspace, hsign, hnum, rfl⟩ := h
  have hskip : (space ++ (sign ++ digits)).dropWhile isSpace = sign ++ digits := by
    rw [List.dropWhile_append_of_pos hspace]
    rcases hsign with rfl | rfl
    · obtain ⟨c, rest, rfl⟩ := List.exists_cons_of_ne_nil hnum.1
      exact List.dropWhile_cons_of_neg (by simp [(not_isSpace_of_isDigit (hnum.2 c (by simp))).1])
    · rfl
  have hlow : (-2 ^ 63 : ℤ) ≤ min (2 ^ 63 - 1) (written digits : ℤ) := by omega
  have hdigits := List.takeWhile_eq_self_iff.mpr hnum.2
  have hend := List.dropWhile_eq_nil_iff.mpr hnum.2
  unfold strtol
  simp only [hskip]
  rcases hsign with rfl | rfl
  · rw [List.nil_append]
    split
    · exact absurd (hnum.2 '-' List.mem_cons_self) (by decide)
    · exact absurd (hnum.2 '+' List.mem_cons_self) (by decide)
    · simp only [hdigits, hend, if_neg hnum.1, ofDigits_eq_written, Bool.false_eq_true, if_false,
        max_eq_right hlow]
  · simp only [List.singleton_append, hdigits, hend, if_neg hnum.1, ofDigits_eq_written,
      Bool.false_eq_true, if_false, max_eq_right hlow]

/-- Nothing else is read to the end as a positive number. -/
theorem reads_of_strtol :
    (strtol num).2 = [] → 0 < (strtol num).1 → ∃ n, Reads num n := by
  have hsplit := List.takeWhile_append_dropWhile (p := isSpace) (l := num)
  -- behind the white space and the sign `u` is read
  have hread : ∀ sign u, num.dropWhile isSpace = sign ++ u → sign = [] ∨ sign = ['+'] →
      u.takeWhile Char.isDigit ≠ [] → u.dropWhile Char.isDigit = [] → ∃ n, Reads num n := by
    intro sign u hu hsign hne hend
    have hdigits := List.dropWhile_eq_nil_iff.mp hend
    rw [List.takeWhile_eq_self_iff.mpr hdigits] at hne
    rw [hu] at hsplit
    exact ⟨_, _, sign, u, hsplit.symm, fun c hc => List.mem_takeWhile_imp hc, hsign,
      ⟨hne, hdigits⟩, rfl⟩
  unfold strtol
  dsimp only
  split
  · next u _ =>
    -- after a minus sign nothing is positive
    intro _ hpos
    by_cases hnil : u.takeWhile Char.isDigit = []
    · simp [hnil] at hpos
    · simp only [ofDigits_eq_written, if_true, hnil, if_false] at hpos
      omega
  · next u hu =>
    intro hend hpos
    by_cases hnil : u.takeWhile Char.isDigit = []
    · simp [hnil] at hpos
    · rw [if_neg hnil] at hend
      exact hread ['+'] u hu (.inr rfl) hnil hend
  · intro hend hpos
    by_cases hnil : (num.dropWhile isSpace).takeWhile Char.isDigit = []
    · simp [hnil] at hpos
    · rw [if_neg hnil] at hend
      exact hread [] _ rfl (.inl rfl) hnil hend

/-- What an `int` keeps of a number: `strtol` stops at `LONG_MAX`, and 32 bits are left. -/
def narrowed (n : ℕ) : ℤ := toInt (min (2 ^ 63 - 1) n)

/-- A number that fits an `int` is not changed. -/
theorem narrowed_of_fits {n : ℕ} (h : n < 2 ^ 31) : narrowed n = n := by
  rw [narrowed, min_eq_right (by omega)]
  exact Int.bmod_eq_of_le (by omega) (by omega)

/-! ### `ping` -/

/-- What `kill` is called for: `kill(pid, sig)` or `kill(-pgid, sig)`. -/
inductive Destination
  | process (pid : ℕ)
  | group (pgid : ℕ)
  deriving DecidableEq, Repr

/-- The processes that the call reaches. -/
def Destination.members (pgrp : ℕ → Option ℕ) : Destination → ℕ → Bool
  | .process pid, p => p = pid
  | .group pgid, p => pgrp p = some pgid

/-- The test for the target: `group_lookup` or `pid_is_tracked`. -/
def destination (t : JobTables) : Target → Option Destination
  | .job jobId => (Jobs.groupLookup t jobId 64).map fun r => .group r.1
  | .proc pid =>
    if 0 ≤ pid ∧ Jobs.pidIsTracked t pid.toNat then some (.process pid.toNat) else none

/-- The call of `kill` that `ping_command` makes, with the signal; `none` if it makes
none. -/
def pingKill (t : JobTables) (args : List Str) : Option (Destination × ℕ) :=
  match pingRequest args with
  | none => none
  | some (target, sig) => (destination t target).map fun d => (d, sig)

theorem findTarget_eq (s : State) (target : Target) :
    findTarget s target = (destination s.tables target).map (Destination.members s.pgrp) := by
  cases target with
  | job jobId =>
    rw [findTarget, destination, Option.map_map]
    rfl
  | proc pid =>
    rw [findTarget, destination]
    split <;> rfl

/-- **What `ping` does in a session is its call of `kill`**: the call reaches the members of
its destination, and without a call nothing but a message comes of it. -/
theorem ping_iff (steady : Prop) (args : List Str) (s u : State) :
    Ping steady args s u ↔
      match pingKill s.tables args with
      | none =>
        u = s.print (if pingRequest args = none then "ping: invalid syntax\n".toList
          else "ping: no such process found\n".toList)
      | some (d, sig) =>
        ∃ t, Moves steady s t ∧ (steady → Harmless t (d.members s.pgrp) sig) ∧
          u = if Reaches t (d.members s.pgrp) then
              (t.kill (d.members s.pgrp) sig).print (sentMessage args)
            else t.print "ping: no such process found\n".toList := by
  unfold Ping pingKill
  cases hreq : pingRequest args with
  | none => exact Iff.rfl
  | some r =>
    obtain ⟨target, sig⟩ := r
    simp only [findTarget_eq]
    cases destination s.tables target with
    | none | some d => exact Iff.rfl

/-- The number after the target is narrowed, the signal taken modulo 64. -/
theorem pingRequest_eq {sigStr : Str} (hnum : IsNumeral num) (hsig : IsNumeral sigStr) (cmd : Str) :
    pingRequest [cmd, num, sigStr] =
        some (.proc (narrowed (written num)), min (2 ^ 63 - 1) (written sigStr) % 64) ∧
      pingRequest [cmd, '%' :: num, sigStr] =
        some (.job (narrowed (written num)), min (2 ^ 63 - 1) (written sigStr) % 64) := by
  have hmod : (min (2 ^ 63 - 1) (written sigStr : ℤ) % 64).toNat =
      min (2 ^ 63 - 1) (written sigStr) % 64 := by omega
  have hn := hnum.reads.strtol_eq
  have hs := hsig.reads.strtol_eq
  have hv := (isValidNonnegInt_iff num).mpr hnum
  have hw := (isValidNonnegInt_iff sigStr).mpr hsig
  -- a number does not start with `%`
  have hpercent : ∀ rest, num ≠ '%' :: rest := by
    rintro rest rfl
    exact absurd (hnum.2 '%' List.mem_cons_self) (by decide)
  constructor
  · simp only [pingRequest, hw, if_true, hs, hmod, hv, hn, narrowed]
  · simp only [pingRequest, hw, if_true, hs, hmod, hv, hn, narrowed]

theorem destination_proc_iff (t : JobTables) (pid : ℕ) (d : Destination) :
    destination t (.proc pid) = some d ↔
      (∃ e ∈ t.procs, e.active = true ∧ e.pid = pid) ∧ d = .process pid := by
  have htracked : Jobs.pidIsTracked t pid = true ↔
      ∃ e ∈ t.procs, e.active = true ∧ e.pid = pid := by
    simp [Jobs.pidIsTracked, and_comm]
  rw [← htracked]
  simp only [destination, Int.natCast_nonneg, Int.toNat_natCast, true_and]
  split_ifs with h
  · simp [h, eq_comm]
  · simp [h]

/-- `group_lookup` takes the first active group with the id. -/
theorem destination_job_iff (t : JobTables) (jobId : ℤ) (d : Destination) :
    destination t (.job jobId) = some d ↔
      ∃ before after : List ProcGroup, ∃ g, t.groups = before ++ g :: after ∧
        (g.active = true ∧ g.jobId = jobId) ∧
        (∀ g' ∈ before, ¬ (g'.active = true ∧ g'.jobId = jobId)) ∧ d = .group g.pgid := by
  simp only [destination, Option.map_eq_some_iff, Jobs.groupLookup]
  constructor
  · rintro ⟨r, hr, rfl⟩
    split at hr
    · cases hr
    · next g hg =>
      obtain rfl := Option.some.inj hr
      obtain ⟨hp, before, after, hsplit, hbefore⟩ := List.find?_eq_some_iff_append.mp hg
      refine ⟨before, after, g, hsplit, by simpa using hp, ?_, rfl⟩
      intro g' hg' hboth
      simpa [hboth] using hbefore g' hg'
  · rintro ⟨before, after, g, hsplit, hp, hbefore, rfl⟩
    have hfind : t.groups.find? (fun g => g.active && g.jobId == jobId) = some g := by
      refine List.find?_eq_some_iff_append.mpr ⟨by simpa using hp, before, after, hsplit, ?_⟩
      intro g' hg'
      simpa [imp_iff_not_or] using hbefore g' hg'
    rw [hfind]
    exact ⟨_, rfl, rfl⟩

/-- The call is made for the destination of the target, with the signal. -/
theorem pingKill_iff {t : JobTables} {args : List Str} {target : Target} {sig : ℕ}
    (hreq : pingRequest args = some (target, sig)) (d : Destination) (sig' : ℕ) :
    pingKill t args = some (d, sig') ↔ destination t target = some d ∧ sig' = sig := by
  simp only [pingKill, hreq, Option.map_eq_some_iff, Prod.mk.injEq]
  constructor
  · rintro ⟨d', hd', rfl, rfl⟩
    exact ⟨hd', rfl⟩
  · rintro ⟨hd, rfl⟩
    exact ⟨d, hd, rfl, rfl⟩

/-- Two calls of `kill` are the same call, or none, exactly if they are for the same
destination and, where there is one, with the same signal. -/
theorem same_kill_iff {x y : Option Destination} {a b : ℕ} :
    (∀ d sig, x = some d ∧ sig = a ↔ y = some d ∧ sig = b) ↔ x = y ∧ (y ≠ none → a = b) := by
  constructor
  · intro h
    have hxy : x = y := by
      apply Option.ext
      intro d
      exact ⟨fun hd => ((h d a).mp ⟨hd, rfl⟩).1, fun hd => ((h d b).mpr ⟨hd, rfl⟩).1⟩
    refine ⟨hxy, ?_⟩
    intro hy
    obtain ⟨d, hd⟩ := Option.ne_none_iff_exists'.mp hy
    exact ((h d a).mp ⟨hxy.trans hd, rfl⟩).2
  · rintro ⟨rfl, hab⟩ d sig
    refine and_congr_right ?_
    intro hd
    rw [hab (by simp [hd])]

/-- `strtol` stops at `LONG_MAX`, which is 63 modulo 64. -/
theorem signal_kept_iff (n : ℕ) :
    min (2 ^ 63 - 1) n % 64 = n % 64 ↔ n < 2 ^ 63 ∨ n % 64 = 63 := by
  omega

/-- The narrowed number stands for what the number itself stands for, be it nothing; and
if it is something, `strtol` does not change the signal. -/
def PingExact (t : JobTables) (target : ℤ → Target) (n sig : ℕ) : Prop :=
  destination t (target (narrowed n)) = destination t (target n) ∧
    (destination t (target n) ≠ none → sig < 2 ^ 63 ∨ sig % 64 = 63)

instance (t : JobTables) (target : ℤ → Target) (n sig : ℕ) : Decidable (PingExact t target n sig) :=
  inferInstanceAs (Decidable (_ ∧ _))

/-- One background job with one process. -/
def oneJob : JobTables where
  groups := [⟨5, 1, "a".toList, true, false⟩]
  procs := [⟨5, 5, "a".toList, true⟩]

/-- Decimal digits that denote a positive `int`. -/
structure PositiveInt (num : Str) (n : ℤ) : Prop where
  numeral : IsNumeral num
  written_eq : written num = n
  pos : 0 < n
  fits : n < 2 ^ 31

/-- A text that `strtol` reads to the end as a positive number, and what an `int` keeps of
it. -/
def Taken (num : Str) (n : ℤ) : Prop := ∃ k, Reads num k ∧ 0 < k ∧ narrowed k = n

/-- For a job, -1 is the mark of an error. -/
def TakenJob (num : Str) (n : ℤ) : Prop := Taken num n ∧ n ≠ -1

/-- The forms of `resume`, with the job and what it is asked for, where `job` and `secs` are
the ways to write a job and a number of seconds. -/
inductive ResumeForm (job secs : Str → ℤ → Prop) : List Str → ℤ → ResumeMode → Prop
  | bg {cmd num : Str} {n : ℤ} : job num n →
      ResumeForm job secs [cmd, '%' :: num, "bg".toList] n .bg
  | fg {cmd num : Str} {n : ℤ} : job num n →
      ResumeForm job secs [cmd, '%' :: num, "fg".toList] n (.fg none)
  | timeout {cmd num sec : Str} {n m : ℤ} : job num n → secs sec m →
      ResumeForm job secs [cmd, '%' :: num, "fg".toList, "--timeout".toList, sec] n (.fg (some m))

/-- The test that both numbers are put to. -/
theorem taken_iff {n : ℤ} :
    ¬((strtol num).2 ≠ [] ∨ (strtol num).1 ≤ 0) ∧ toInt (strtol num).1 = n ↔ Taken num n := by
  rw [not_or, not_not, not_le]
  constructor
  · rintro ⟨⟨hend, hpos⟩, rfl⟩
    obtain ⟨k, hk⟩ := reads_of_strtol hend hpos
    rw [hk.strtol_eq] at hpos ⊢
    exact ⟨k, hk, by omega, rfl⟩
  · rintro ⟨k, hk, hpos, rfl⟩
    rw [hk.strtol_eq]
    exact ⟨⟨rfl, lt_min (by norm_num) (by omega)⟩, rfl⟩

theorem parseJobArg_iff {job : Str} {n : ℤ} :
    parseJobArg job = n ∧ n ≠ -1 ↔ ∃ num, job = '%' :: num ∧ TakenJob num n := by
  simp only [TakenJob, ← taken_iff]
  unfold parseJobArg
  constructor
  · rintro ⟨hjob, hn⟩
    split at hjob
    · next num =>
      dsimp only at hjob
      split_ifs at hjob with hnil hbad
      · exact absurd hjob.symm hn
      · exact absurd hjob.symm hn
      · exact ⟨num, rfl, ⟨hbad, hjob⟩, hn⟩
    · exact absurd hjob.symm hn
  · rintro ⟨num, rfl, ⟨hgood, hjob⟩, hn⟩
    have hne : num ≠ [] := by
      rintro rfl
      exact absurd hgood (by decide)
    refine ⟨?_, hn⟩
    simp only [if_neg hne, if_neg hgood, hjob]

/-- **What gets past the checks of `resume_command`.** -/
theorem resumeRequest_iff {args : List Str} {jobId : ℤ} {mode : ResumeMode} :
    resumeRequest args = some (jobId, mode) ↔ ResumeForm TakenJob Taken args jobId mode := by
  constructor
  · intro h
    unfold resumeRequest at h
    split at h
    · next cmd job word rest =>
      dsimp only at h
      by_cases hbad : parseJobArg job = -1
      · rw [if_pos hbad] at h
        cases h
      rw [if_neg hbad] at h
      obtain ⟨num, rfl, hjob⟩ := parseJobArg_iff.mp ⟨rfl, hbad⟩
      split_ifs at h with hfg hbg
      · subst hfg
        split at h
        · cases h
          exact .fg hjob
        · next opt secs =>
          split_ifs at h with hopt
          cases h
          obtain ⟨hword, hread⟩ := not_or.mp hopt
          obtain rfl := not_not.mp hword
          exact .timeout hjob (taken_iff.mp ⟨hread, rfl⟩)
        · cases h
      · obtain ⟨rfl, rfl⟩ := hbg
        cases h
        exact .bg hjob
    · cases h
  · intro h
    have hparse : ∀ {num n}, TakenJob num n → parseJobArg ('%' :: num) = n := by
      intro num n hjob
      exact (parseJobArg_iff.mpr ⟨num, rfl, hjob⟩).1
    cases h with
    | bg hjob =>
      simp only [resumeRequest, hparse hjob]
      rw [if_neg hjob.2, if_neg (by decide), if_pos ⟨trivial, trivial⟩]
    | fg hjob =>
      simp only [resumeRequest, hparse hjob]
      rw [if_neg hjob.2, if_pos trivial]
    | timeout hjob hsec =>
      obtain ⟨hgood, hval⟩ := taken_iff.mpr hsec
      simp only [resumeRequest, hparse hjob, hval]
      rw [if_neg hjob.2, if_pos trivial, if_neg (by simpa using hgood)]

theorem PositiveInt.taken {n : ℤ} (h : PositiveInt num n) : TakenJob num n := by
  obtain ⟨hnum, rfl, hpos, hfits⟩ := h
  exact ⟨⟨_, hnum.reads, by omega, narrowed_of_fits (by omega)⟩, by omega⟩

/-- A text stands for one number only. -/
theorem Taken.unique {n m : ℤ} (hn : Taken num n) (hm : Taken num m) : n = m := by
  rw [← (taken_iff.mpr hn).2, (taken_iff.mpr hm).2]

/-- Where the vector has one of the forms with numbers that `strtol` reads to the end as
positive, they are plain digits and no larger than an `int`. -/
structure ResumeExact (args : List Str) : Prop where
  short : ∀ cmd num word n, args = [cmd, '%' :: num, word] →
    word = "bg".toList ∨ word = "fg".toList → TakenJob num n → PositiveInt num n
  timeout : ∀ cmd num sec n m,
    args = [cmd, '%' :: num, "fg".toList, "--timeout".toList, sec] →
      TakenJob num n → Taken sec m → PositiveInt num n ∧ PositiveInt sec m

theorem ResumeExact.form_iff {args : List Str} (hexact : ResumeExact args) (jobId : ℤ)
    (mode : ResumeMode) : ResumeForm TakenJob Taken args jobId mode ↔
      ResumeForm PositiveInt PositiveInt args jobId mode := by
  constructor
  · intro h
    cases h with
    | bg hjob => exact .bg (hexact.short _ _ _ _ rfl (.inl rfl) hjob)
    | fg hjob => exact .fg (hexact.short _ _ _ _ rfl (.inr rfl) hjob)
    | timeout hjob hsec =>
      obtain ⟨hpos, hpos'⟩ := hexact.timeout _ _ _ _ _ rfl hjob hsec
      exact .timeout hpos hpos'
  · intro h
    cases h with
    | bg hpos => exact .bg hpos.taken
    | fg hpos => exact .fg hpos.taken
    | timeout hpos hpos' => exact .timeout hpos.taken hpos'.taken.1

/-- **When `resume` accepts exactly its syntax.**  The checks are to be passed exactly by
`%N bg`, `%N fg` and `%N fg --timeout S` with positive `int`s, and the command is then to act
on the job `N` with the timeout `S`.  Exactly for the vectors that `ResumeExact` describes
it does. -/
theorem resume_accepts_forms (args : List Str) :
    ((∀ jobId mode, resumeRequest args = some (jobId, mode) ↔
        ResumeForm PositiveInt PositiveInt args jobId mode) ∧
      ∀ steady s u,
        ((¬∃ jobId mode, ResumeForm PositiveInt PositiveInt args jobId mode) →
          (Resume steady args s u ↔ u = s.print "resume: invalid syntax\n".toList)) ∧
        ∀ jobId mode, ResumeForm PositiveInt PositiveInt args jobId mode →
          (Resume steady args s u ↔
            match Jobs.groupLookup s.tables jobId 64 with
            | none => u = s.print "resume: no such job\n".toList
            | some (pgid, _, cmdName) => Resumes steady jobId pgid cmdName mode s u)) ↔
      ResumeExact args := by
  simp only [resumeRequest_iff]
  constructor
  · rintro ⟨hiff, -⟩
    constructor
    · rintro cmd num word n rfl (rfl | rfl) hjob
      · cases (hiff _ _).mp (.bg hjob) with
        | bg hpos => exact hpos
      · cases (hiff _ _).mp (.fg hjob) with
        | fg hpos => exact hpos
    · rintro cmd num sec n m rfl hjob hsec
      cases (hiff _ _).mp (.timeout hjob hsec) with
      | timeout hpos hpos' => exact ⟨hpos, hpos'⟩
  · intro hexact
    have hiff := hexact.form_iff
    refine ⟨hiff, ?_⟩
    intro steady s u
    constructor
    · intro hno
      have hnone : resumeRequest args = none := by
        rw [Option.eq_none_iff_forall_ne_some]
        intro r hr
        exact hno ⟨r.1, r.2, (hiff r.1 r.2).mp (resumeRequest_iff.mp hr)⟩
      rw [Resume, hnone]
    · intro jobId mode hform
      have hsome := resumeRequest_iff.mpr ((hiff jobId mode).mpr hform)
      unfold Resume
      split
      · next hnone => rw [hnone] at hsome; cases hsome
      · next hsome' =>
        rw [hsome'] at hsome
        cases hsome
        exact Iff.rfl

theorem resume_accepts_forms_timeout :
    resumeRequest ["resume".toList, "%12".toList, "fg".toList, "--timeout".toList, "3".toList] =
      some (12, .fg (some 3)) := by
  have hjob : PositiveInt "12".toList 12 := ⟨by decide, by decide, by decide, by decide⟩
  have hsec : PositiveInt "3".toList 3 := ⟨by decide, by decide, by decide, by decide⟩
  refine (((resume_accepts_forms _).mpr ⟨?_, ?_⟩).1 _ _).mpr (.timeout hjob hsec)
  · intro cmd num word n h
    cases h
  · intro cmd num sec n m h hn hm
    cases h
    rw [hn.1.unique hjob.taken.1, hm.unique hsec.taken.1]
    exact ⟨hjob, hsec⟩

/-- A sign and numbers beyond `int` get past the checks. -/
theorem resume_accepts_more :
    (resumeRequest ["resume".toList, '%' :: "+1".toList, "bg".toList] = some (1, .bg) ∧
      ¬∃ jobId mode,
        ResumeForm PositiveInt PositiveInt ["resume".toList, '%' :: "+1".toList, "bg".toList]
          jobId mode) ∧
    (resumeRequest ["resume".toList, '%' :: "4294967297".toList, "bg".toList] = some (1, .bg) ∧
      ¬∃ jobId mode,
        ResumeForm PositiveInt PositiveInt
          ["resume".toList, '%' :: "4294967297".toList, "bg".toList] jobId mode) ∧
    resumeRequest ["resume".toList, '%' :: "1".toList, "fg".toList, "--timeout".toList,
        "4294967296".toList] = some (1, .fg (some 0)) ∧
      ¬∃ jobId mode, ResumeForm PositiveInt PositiveInt ["resume".toList, '%' :: "1".toList,
        "fg".toList, "--timeout".toList, "4294967296".toList] jobId mode := by
  refine ⟨⟨by decide +kernel, ?_⟩, ⟨by decide +kernel, ?_⟩, by decide +kernel, ?_⟩
  · rintro ⟨jobId, mode, h⟩
    cases h with
    | bg hpos => exact absurd hpos.numeral (by decide)
  · rintro ⟨jobId, mode, h⟩
    cases h with
    | bg hpos => exact absurd (hpos.written_eq ▸ hpos.fits) (by decide +kernel)
  · rintro ⟨jobId, mode, h⟩
    cases h with
    | timeout _ hsec => exact absurd (hsec.written_eq ▸ hsec.fits) (by decide +kernel)

end Control
end RuShell
