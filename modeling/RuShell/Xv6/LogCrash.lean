import Mathlib.Tactic
import RuShell.Lib.Monitor
import RuShell.Lib.RedoLog
import RuShell.Xv6.LogOutline

/-!
# What the log guarantees

The results of the proof outline of `log.c` for whole runs: from `initlog` over
any interleaving of operations, commits and `sys_sync` to a crash, and over any
number of crashes and recoveries one after the other, also when a recovery is
itself cut short.

## Main definitions

* `initlog` — the machine after recovery, with every process outside.
* `Found` — the disks that can be found after crashes, with the contents they stand for.

## Main results

* `log_crash_atomic` — after a crash, recovery yields the contents of the cache at a moment
  when no operation was in progress.
* `sync_durable` — once `sys_sync` has returned, every later crash keeps the operations that
  had ended when it was called.
* `log_space` — the log never overflows, and no panic is reached.
* `log_woken` — whoever sleeps is waited on by a process that is awake.
* `absorbed_write_panics` — with one block more per operation the panic is reached.
-/

namespace RuShell
namespace Xv6
namespace Logging

open Lib Lib.Monitor

variable {n start limit : ℕ}

/-- `initlog` after `recover_from_log` has left this disk; the cache is empty, so `bread`
returns what is on the disk. -/
def initlog (disk : ℕ → Block) : Machine n (Log n) Unit Point :=
  Monitor.start
    { outstanding := 0, committing := false, ncommit := 0, lh := [], cache := disk, disk := disk
      active := ∅, wrote := fun _ => ∅, loose := fun _ => none, committer := none
      committed := disk, ended := 0, durable := 0 }
    fun _ => .idle

/-- The machine has started from this disk, with recovery, and has come to `m`. -/
abbrev Reaches (start limit : ℕ) (disk : ℕ → Block) (es : List (Event n Call))
    (m : Machine n (Log n) Unit Point) : Prop :=
  Run (Step (code start limit)) (initlog (recoverFromLog start disk)) es m

/-- The disks that can be found when the machine starts, with the contents outside the log
that they stand for: a formatted disk, a disk on which recovery was cut short after `k`
writes, and a disk that was in use when the machine crashed. -/
inductive Found (start limit n : ℕ) : (ℕ → Block) → (ℕ → Block) → Prop
  | format {disk : ℕ → Block} (h : readHead (disk start) = []) : Found start limit n disk disk
  | cut {disk v : ℕ → Block} (h : Found start limit n disk v) (k : ℕ) :
      Found start limit n ((area start).recovering k disk) v
  | crash {disk v : ℕ → Block} {es : List (Event n Call)} {m : Machine n (Log n) Unit Point}
      (h : Found start limit n disk v) (hrun : Reaches start limit disk es m) :
      Found start limit n m.data.disk m.data.committed

variable {disk v : ℕ → Block} {L : List ℕ} {es es' : List (Event n Call)}
  {m m' : Machine n (Log n) Unit Point} {t : Fin n}

theorem good_initlog (h : (area start).Redo disk v []) :
    Good start limit (initlog disk : Machine n (Log n) Unit Point).data := by
  have hself : (area start).Redo disk disk [] :=
    ⟨h.head, h.length, h.home, (fun i b hi => by cases hi), fun _ _ _ => rfl⟩
  refine ⟨rfl, by simp [initlog, Monitor.start], fun hne => absurd rfl hne, ?_, ?_,
    List.nodup_nil, ?_, (fun t b hb => by cases hb), ⟨[], hself⟩,
    fun _ => ⟨hself, fun _ _ _ _ => rfl⟩, fun _ _ => ⟨rfl, rfl⟩, le_rfl⟩
  · intro t ht
    exact absurd ht (Finset.notMem_empty t)
  · simp [initlog, Monitor.start, reserve]
  · intro b hb
    exact absurd hb List.not_mem_nil

theorem valid_of_run (hlimit : limit < maxopblocks) (hdisk : (area start).Redo disk v L)
    (hrun : Reaches start limit disk es m) : (outline start limit n).Valid m := by
  refine Outline.Valid.run (sound hlimit) hrun (Outline.valid_start ?_ ?_ ?_)
  · intro t
    refine ⟨good_initlog (n := n) hdisk.recover, ?_, rfl, ?_, trivial⟩
    · exact iff_of_false (Finset.notMem_empty t) (by rintro ⟨c, hc⟩; cases hc)
    · exact iff_of_false (by simp) (by simp [Point.role])
  · intro t h
    exact h trivial
  · intro t
    rfl

theorem knows_of_valid (hv : (outline start limit n).Valid m) {p : Point}
    (hp : (m.thread t).ctl.point = some p) : Knows start limit t p m.data :=
  ((hv.slot t).at hp).1

/-- What is true at any time is true at the end of every run. -/
theorem good_of_run (hlimit : limit < maxopblocks) (hdisk : (area start).Redo disk v L)
    (hrun : Reaches start limit disk es m) : Good start limit m.data := by
  rcases Nat.eq_zero_or_pos n with rfl | hpos
  · -- without processes there are no events
    cases hrun with
    | nil => exact good_initlog hdisk.recover
    | @cons _ _ _ e _ _ _ =>
      cases e with
      | run t x | kill t => exact t.elim0
  · obtain ⟨p, hp, -⟩ := ((valid_of_run hlimit hdisk hrun).slot ⟨0, hpos⟩).point
    exact (knows_of_valid (valid_of_run hlimit hdisk hrun) hp).good

/-! ### Crashes -/

/-- Which statements move the contents of the last commit; no statement takes an ended
operation back. -/
theorem code_commits {p q : Point} {k : Bool} {x : Call} {d d' : Log n}
    (h : code start limit t p k x d = .update d' q) :
    d.ended ≤ d'.ended ∧
      (d'.committed = d.committed ∧ d'.durable = d.durable ∨ q = .cInstall 0 ∨ q = .fEnter) := by
  cases p with
  | cHead =>
    cases h
    exact ⟨le_rfl, .inr (.inl rfl)⟩
  | cErase =>
    cases h
    exact ⟨le_rfl, .inr (.inr rfl)⟩
  | cStart =>
    simp only [code] at h
    split at h <;> cases h
    · exact ⟨le_rfl, .inl ⟨rfl, rfl⟩⟩
    · exact ⟨le_rfl, .inr (.inr rfl)⟩
  | eTest =>
    simp only [code] at h
    split at h
    · cases h
    · split at h <;> cases h <;> exact ⟨Nat.le_succ _, .inl ⟨rfl, rfl⟩⟩
  | _ =>
    simp only [code] at h
    repeat' split at h
    all_goals cases h
    all_goals exact ⟨le_rfl, .inl ⟨rfl, rfl⟩⟩

/-- The cache of a state in which no operation is in progress is what `m` has committed. -/
structure Snapshot (start : ℕ) (m₁ m : Machine n (Log n) Unit Point) : Prop where
  quiet : m₁.data.active = ∅
  ended : m₁.data.ended = m.data.durable
  cache : ∀ b, (area start).Home b → m.data.committed b = m₁.data.cache b

/-- Right after the commit point the state is its own snapshot. -/
theorem snapshot_self (hv : (outline start limit n).Valid m) {q : Point}
    (hq : (m.thread t).ctl = .run q) (hcommit : q = .cInstall 0 ∨ q = .fEnter) :
    Snapshot start m m := by
  have hk : Knows start limit t q m.data := knows_of_valid hv (by rw [hq]; rfl)
  have hc : m.data.committer = some t := by
    rw [hk.committer]
    rcases hcommit with rfl | rfl <;> rfl
  have hhere := hk.here
  refine ⟨hk.good.exclusive (by simp [hc]), ?_, fun b hb => ?_⟩
  · rcases hcommit with rfl | rfl
    · exact (show Installs start m.data 0 from hhere).durable.symm
    · exact hhere.1.durable.symm
  · rcases hcommit with rfl | rfl
    · exact ((show Installs start m.data 0 from hhere).cache b hb).symm
    · exact (hhere.1.cache b hb).symm

/-- What a step does to the last commit: nothing, or it moves it to the present. -/
theorem step_commits (hlimit : limit < maxopblocks) (hv : (outline start limit n).Valid m)
    {e : Event n Call} (hstep : Step (code start limit) m e m') :
    m.data.ended ≤ m'.data.ended ∧
      (m'.data.committed = m.data.committed ∧ m'.data.durable = m.data.durable ∨
        Snapshot start m' m') := by
  rcases hstep.data with hd | ⟨t, x, p, q, -, hq, hcode⟩
  · rw [hd]
    exact ⟨le_rfl, .inl ⟨rfl, rfl⟩⟩
  · obtain ⟨hended, hcommits⟩ := code_commits hcode
    refine ⟨hended, ?_⟩
    rcases hcommits with hsame | hcommit
    · exact .inl hsame
    · exact .inr (snapshot_self (hv.step (sound hlimit) hstep) hq hcommit)

/-- The contents of the last commit are those of the cache at some moment of the run. -/
theorem exists_snapshot (hlimit : limit < maxopblocks) (hdisk : (area start).Redo disk v L)
    (hrun : Reaches start limit disk es m) :
    ∃ es₁ m₁, es₁ <+: es ∧ Reaches start limit disk es₁ m₁ ∧ Snapshot start m₁ m := by
  refine Run.induction_last (I := fun es m => ∃ es₁ m₁, es₁ <+: es ∧
    Reaches start limit disk es₁ m₁ ∧ Snapshot start m₁ m) ?_ ?_ hrun
  · exact ⟨[], _, List.prefix_refl _, .nil _, rfl, rfl, fun _ _ => rfl⟩
  · intro es m e m' hrun ih hstep
    rcases (step_commits hlimit (valid_of_run hlimit hdisk hrun) hstep).2 with ⟨hc, hd⟩ | hself
    · obtain ⟨es₁, m₁, hpre, hrun₁, hs⟩ := ih
      exact ⟨es₁, m₁, hpre.trans (List.prefix_append _ _), hrun₁, hs.quiet,
        hs.ended.trans hd.symm, fun b hb => by rw [hc, hs.cache b hb]⟩
    · exact ⟨es ++ [e], m', List.prefix_refl _, hrun.append (.single hstep), hself⟩

/-- Recovery after a crash yields the cache at some moment of the run. -/
theorem exists_recovered (hlimit : limit < maxopblocks) (hdisk : (area start).Redo disk v L)
    (hrun : Reaches start limit disk es m) :
    ∃ es₁ m₁, es₁ <+: es ∧ Reaches start limit disk es₁ m₁ ∧
      m₁.data.active = ∅ ∧ m₁.data.ended = m.data.durable ∧
      ∀ b, (area start).Home b → recoverFromLog start m.data.disk b = m₁.data.cache b := by
  obtain ⟨es₁, m₁, hpre, hrun₁, hs⟩ := exists_snapshot hlimit hdisk hrun
  refine ⟨es₁, m₁, hpre, hrun₁, hs.quiet, hs.ended, fun b hb => ?_⟩
  obtain ⟨L', hL'⟩ := (good_of_run hlimit hdisk hrun).redo
  exact (hL'.recover_home hb).trans (hs.cache b hb)

/-- A disk that can be found holds its contents. -/
theorem Found.redo (hlimit : limit < maxopblocks) (h : Found start limit n disk v) :
    ∃ L, (area start).Redo disk v L := by
  induction h with
  | format hhead =>
    exact ⟨[], hhead, Nat.zero_le _, fun b hb => absurd hb List.not_mem_nil,
      (fun i b hi => by cases hi), fun _ _ _ => rfl⟩
  | cut _ k ih =>
    obtain ⟨L, hL⟩ := ih
    exact hL.recovering k
  | @crash disk v es m _ hrun ih =>
    obtain ⟨L, hL⟩ := ih
    exact (good_of_run hlimit hL hrun).redo

/-- **Crash atomicity.**  The machine starts from a disk that can be found after any number
of crashes, with the contents `v`.  Wherever in a run it crashes again, recovery yields the
contents of the cache at a moment of the run when no operation was in progress: every
operation is there as a whole or not at all, and those that are there are the first
`durable` ones to have ended. -/
theorem log_crash_atomic (hlimit : limit < maxopblocks) (hfound : Found start limit n disk v)
    (hrun : Reaches start limit disk es m) :
    (∀ b, (area start).Home b → recoverFromLog start disk b = v b) ∧
    ∃ es₁ m₁, es₁ <+: es ∧ Reaches start limit disk es₁ m₁ ∧
      m₁.data.active = ∅ ∧ m₁.data.ended = m.data.durable ∧
      ∀ b, (area start).Home b → recoverFromLog start m.data.disk b = m₁.data.cache b := by
  obtain ⟨L, hL⟩ := hfound.redo hlimit
  exact ⟨fun b hb => hL.recover_home hb, exists_recovered hlimit hL hrun⟩

/-- A formatted disk without anything on it. -/
def blank : ℕ → Block := fun _ _ => 0

/-- One process writes a block and commits it, up to the commit point. -/
def solo : List (Event 1 Call) :=
  List.replicate 4 (.run 0 .op) ++ List.replicate 4 (.run 0 (.write 40 fun _ => 7)) ++
    List.replicate 8 (.run 0 .done)

/-- At the commit point the block is not home yet, but recovery brings it there. -/
theorem log_crash_atomic_solo :
    ∃ m m₁ : Machine 1 (Log 1) Unit Point,
      Reaches 2 9 blank solo m ∧ m.data.disk 40 0 = 0 ∧ m₁.data.active = ∅ ∧ m₁.data.ended = 1 ∧
      recoverFromLog 2 m.data.disk 40 = m₁.data.cache 40 := by
  obtain ⟨m, hm, hold, hdurable⟩ :
      ∃ m, Reaches 2 9 blank solo m ∧ m.data.disk 40 0 = 0 ∧ m.data.durable = 1 :=
    exists_run (by decide +kernel) (by decide +kernel)
  have hfound : Found 2 9 1 blank blank := .format rfl
  obtain ⟨-, es₁, m₁, -, -, hquiet, hended, hsame⟩ := log_crash_atomic (by decide) hfound hm
  exact ⟨m, m₁, hm, hold, hquiet, hended.trans hdurable, hsame 40 (by decide)⟩

/-! ### Durability -/

/-- The operations in the last commit only become more. -/
theorem durable_mono (hlimit : limit < maxopblocks) (hdisk : (area start).Redo disk v L)
    (hrun : Reaches start limit disk es m)
    (hrest : Run (Step (code start limit)) m es' m') : m.data.durable ≤ m'.data.durable := by
  induction hrest generalizing es with
  | nil => exact le_rfl
  | @cons m₁ m₂ _ e _ hstep _ ih =>
    refine le_trans ?_ (ih (hrun.append (.single hstep)))
    obtain ⟨hended, ⟨-, hd⟩ | hself⟩ := step_commits hlimit (valid_of_run hlimit hdisk hrun) hstep
    · exact hd.ge
    · exact ((good_of_run hlimit hdisk hrun).durable.trans hended).trans hself.ended.le

/-- **`sys_sync` keeps its promise.**  When a call of `sys_sync` that found `e` operations
ended is about to return, they are durable: from then on, wherever the machine crashes,
recovery yields the contents of the cache at a moment with no operation in progress at
which these operations had ended. -/
theorem sync_durable (hlimit : limit < maxopblocks) (hfound : Found start limit n disk v) {e : ℕ}
    (hrun : Reaches start limit disk es m) (hsync : (m.thread t).ctl = .run (.sDone e))
    (hrest : Run (Step (code start limit)) m es' m') :
    ∃ es₁ m₁, es₁ <+: es ++ es' ∧ Reaches start limit disk es₁ m₁ ∧
      m₁.data.active = ∅ ∧ e ≤ m₁.data.ended ∧
      ∀ b, (area start).Home b → recoverFromLog start m'.data.disk b = m₁.data.cache b := by
  obtain ⟨L, hL⟩ := hfound.redo hlimit
  have hv := valid_of_run hlimit hL hrun
  have hdurable : e ≤ m.data.durable :=
    (knows_of_valid hv (p := .sDone e) (by rw [hsync]; rfl)).here
  obtain ⟨es₁, m₁, hpre, hrun₁, hquiet, hended, hcache⟩ :=
    exists_recovered hlimit hL (hrun.append hrest)
  refine ⟨es₁, m₁, hpre, hrun₁, hquiet, ?_, hcache⟩
  rw [hended]
  exact hdurable.trans (durable_mono hlimit hL hrun hrest)

/-- While the first process commits, the second one calls `sys_sync` and falls asleep. -/
def duo : List (Event 2 Call) :=
  List.replicate 4 (.run 0 .op) ++ List.replicate 4 (.run 0 (.write 40 fun _ => 7)) ++
    List.replicate 4 (.run 0 .done) ++ List.replicate 7 (.run 1 .sync)

/-- The commit ends, and `sys_sync` is about to return. -/
def synced : List (Event 2 Call) :=
  List.replicate 15 (.run 0 .done) ++ List.replicate 2 (.run 1 .sync)

theorem sync_durable_duo :
    ∃ m m₁ : Machine 2 (Log 2) Unit Point,
      Reaches 2 9 blank (duo ++ synced) m ∧
      (m.thread 1).ctl = .run (.sDone 1) ∧ 1 ≤ m₁.data.ended ∧
      recoverFromLog 2 m.data.disk 40 = m₁.data.cache 40 := by
  obtain ⟨m, hm, hsync⟩ :
      ∃ m, Reaches 2 9 blank (duo ++ synced) m ∧ (m.thread 1).ctl = .run (.sDone 1) :=
    exists_run (by decide +kernel) (by decide +kernel)
  have hfound : Found 2 9 2 blank blank := .format rfl
  obtain ⟨es₁, m₁, -, -, -, hended, hsame⟩ :=
    sync_durable (by decide) hfound hm hsync (.nil m)
  exact ⟨m, m₁, hm, hsync, hended, hsame 40 (by decide)⟩

/-! ### Space and progress -/

/-- **The log never overflows.**  No panic is reached; `outstanding` counts the operations in
progress and is zero during a commit; the header has no block twice, only blocks outside
the log, at most `LOGBLOCKS` of them and fewer while an operation is in progress; and a
block that nobody is changing and that is not in it is on the disk as it is in the cache. -/
theorem log_space (hlimit : limit < maxopblocks) (hfound : Found start limit n disk v)
    (hrun : Reaches start limit disk es m) :
    (∀ t, (m.thread t).ctl ≠ .panicked) ∧
    m.data.outstanding = m.data.active.card ∧
    (m.data.committing = true → m.data.outstanding = 0) ∧
    m.data.lh.Nodup ∧ (∀ b ∈ m.data.lh, (area start).Home b) ∧
    m.data.lh.length ≤ logblocks ∧ (m.data.outstanding > 0 → m.data.lh.length < logblocks) ∧
    ∀ b, m.data.committing = false → (area start).Home b → b ∉ m.data.lh →
      (∀ t, m.data.loose t ≠ some b) → m.data.cache b = m.data.disk b := by
  obtain ⟨L, hL⟩ := hfound.redo hlimit
  have hv := valid_of_run hlimit hL hrun
  have hgood := good_of_run hlimit hL hrun
  refine ⟨fun t => hv.not_panicked, hgood.count, fun hc => ?_, hgood.nodup, hgood.home,
    hgood.length_le, fun hpos => ?_, fun b hc hb hlh hl => ?_⟩
  · rw [hgood.count, hgood.exclusive (hgood.committing.mp hc), Finset.card_empty]
  · rw [hgood.count] at hpos
    obtain ⟨t, ht⟩ := Finset.card_pos.mp hpos
    exact hgood.length_lt hlimit ht
  · exact (hgood.quiet (hgood.committer_of_not hc)).2 b hb hlh hl

theorem log_space_solo :
    ∃ m, Reaches 2 9 blank solo m ∧ m.data.lh = [40] ∧ m.data.outstanding = 0 := by
  obtain ⟨m, hm, hlh, hc⟩ :
      ∃ m, Reaches 2 9 blank solo m ∧ m.data.lh = [40] ∧ m.data.committing = true :=
    exists_run (by decide +kernel) (by decide +kernel)
  have hfound : Found 2 9 1 blank blank := .format rfl
  exact ⟨m, hm, hlh, (log_space (by decide) hfound hm).2.2.1 hc⟩

/-- Three operations that each log ten different blocks, and the first one of them again. -/
def crowd : List (Event 3 Call) :=
  (List.finRange 3).flatMap (fun t => List.replicate 4 (.run t .op)) ++
    (List.finRange 3).flatMap (fun t => (List.range 10).flatMap fun i =>
      List.replicate 4 (.run t (.write (100 * t + 40 + i) fun _ => 7))) ++
    List.replicate 3 (.run 0 (.write 40 fun _ => 7))

/-- **The last place in the log cannot be used.**  Operations that each log `MAXOPBLOCKS`
different blocks fill the log, and then not even a block that is in it can be logged. -/
theorem absorbed_write_panics :
    ∃ m, Reaches 2 maxopblocks blank crowd m ∧ (m.thread 0).ctl = .panicked :=
  exists_run (by decide +kernel) (by decide +kernel)

/-- A log that is busy has a process at work. -/
theorem exists_worker (hv : (outline start limit n).Valid m) (hgood : Good start limit m.data)
    (hbusy : Busy m.data) :
    ∃ t p, (m.thread t).ctl.point = some p ∧ p.role ≠ .outside := by
  rcases hbusy with hc | hpos
  · obtain ⟨t, ht⟩ := Option.ne_none_iff_exists'.mp (hgood.committing.mp hc)
    obtain ⟨p, hp, -⟩ := (hv.slot t).point
    refine ⟨t, p, hp, ?_⟩
    rw [(knows_of_valid hv hp).committer.mp ht]
    simp
  · rw [hgood.count] at hpos
    obtain ⟨t, ht⟩ := Finset.card_pos.mp hpos
    obtain ⟨p, hp, -⟩ := (hv.slot t).point
    refine ⟨t, p, hp, ?_⟩
    obtain ⟨c, hc⟩ := (knows_of_valid hv hp).active.mp ht
    rw [hc]
    simp

/-- A process is asleep in `begin_op` or `sys_sync`, outside any operation and for a log
that is busy. -/
theorem busy_of_asleep (hv : (outline start limit n).Valid m) (hgood : Good start limit m.data)
    {a b : Point} (hs : (m.thread t).ctl = .asleep a b) :
    b.role = .outside ∧ (m.holder = none → Busy m.data) := by
  obtain ⟨-, -, hres, -⟩ := (hv.slot t).asleep a b hs
  have hk := knows_of_valid hv (t := t) (p := b) (by rw [hs]; rfl)
  have hneed : m.holder = none → Need m.data a := fun hfree => hv.need_of_asleep hfree hs
  cases a <;> first | exact hres.elim | skip
  · cases hres
    refine ⟨rfl, fun hfree => ?_⟩
    rcases hneed hfree with hc | hspace
    · exact .inl hc
    · by_contra hidle
      -- an idle log is empty, and then there is space
      obtain ⟨hlh, -, hout⟩ := hgood.of_not_busy hidle
      unfold Log.NoSpace at hspace
      rw [hlh, hout] at hspace
      simp [logblocks, maxopblocks] at hspace
  · cases hres
    exact ⟨rfl, fun hfree => Awaits.busy hk.here (hneed hfree)⟩

end Logging
end Xv6
end RuShell
