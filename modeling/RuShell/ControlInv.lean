import RuShell.Control

/-!
# The invariant of job control

What is known about the tables, the children and the terminal at any time, and why each
single step keeps it.  Two of its parts are what the tables are for: an active entry stands
for a job with a process that has not been reaped, and its flag tells whether one of its
processes is stopped.  The job in the foreground is exempt from them while the shell waits
for it, since what is known about it then depends on how far the shell has got.

## Main definitions

* `Frame` — what the moves leave alone.
* `Base steady ex s` — the invariant; the flag of the group `ex` does not matter.

## Main results

* `alive_move`, `hasStopped_move`, `unreaped_move`, `stopped_move` — what a move does to a
  group or to a process.
* `Base.moves` — moves keep the invariant.
* `Base.setFlag`, `Base.remove` — a group becomes exact again.
-/

namespace RuShell
namespace Control

open Lib (Run)
open Lib.Posix
open RuShell.Segment
open RuShell.Jobs (JobTables ProcEntry ProcGroup)
open RuShell.Redirect

variable {steady : Prop} {s t u : State} {m : Move} {p pid q : ℕ} {life : Life}

/-! ### Moves -/

/-- The parts of the state that moves leave alone. -/
structure Frame (s t : State) : Prop where
  groups : t.tables.groups = s.tables.groups
  keys : t.tables.procKeys = s.tables.procKeys
  pids : t.pids = s.pids
  pgrp : t.pgrp = s.pgrp
  masked : t.masked = s.masked
  tty : t.tty = s.tty
  launching : t.launching = s.launching
  fgJob : t.fgJob = s.fgJob

theorem frame_setLife (s : State) (pid : ℕ) (life : Life) : Frame s (s.setLife pid life) :=
  ⟨rfl, rfl, rfl, rfl, rfl, rfl, rfl, rfl⟩

theorem frame_reap (s : State) (pid : ℕ) (status : Status) (stale : Bool) :
    Frame s { s.reap pid status with stale := stale } := by
  obtain ⟨hgroups, -, hprocs⟩ := Jobs.handleChild_frame s.tables pid status
  refine ⟨hgroups, ?_, rfl, rfl, rfl, rfl, rfl, rfl⟩
  change (Jobs.handleChild s.tables pid status).procKeys = s.tables.procKeys
  rw [JobTables.procKeys, hprocs]
  exact Lib.map_updateFirst fun _ _ => rfl

/-- What a move can do: a process that has not been reaped changes its state and is still
not reaped, or the handler reaps a process. -/
theorem move_cases (h : MoveStep steady s m t) :
    (∃ pid life, pid ∈ s.pids ∧ unreaped (s.kids pid) = true ∧ unreaped life = true ∧
      life ≠ .terminated .stopped ∧
      (steady → s.kids pid ≠ .stopped ∧ (life = .stopped → s.tty ≠ none ∧ s.pgrp pid = s.tty)) ∧
      t = s.setLife pid life) ∨
    (∃ pid status, s.masked = false ∧ s.kids pid = .terminated status ∧
      t = { s.reap pid status with
        stale := s.stale || decide (Misses (s.reap pid status) pid) }) := by
  obtain ⟨hsteady, hmove⟩ := h
  cases m with
  | exits pid status =>
    simp only [move, Option.ite_none_right_eq_some, Option.some.injEq] at hmove
    obtain ⟨⟨hmem, hlife, hstatus⟩, rfl⟩ := hmove
    have hunreaped : unreaped (s.kids pid) = true := by
      rcases hlife with h | h <;> rw [h] <;> rfl
    refine .inl ⟨pid, _, hmem, hunreaped, rfl, fun h => hstatus (by cases h; rfl), ?_, rfl⟩
    intro h
    exact ⟨hsteady h, fun h => by cases h⟩
  | stops pid =>
    simp only [move, Option.ite_none_right_eq_some, Option.some.injEq] at hmove
    obtain ⟨⟨hmem, hlife⟩, rfl⟩ := hmove
    refine .inl ⟨pid, _, hmem, by rw [hlife]; rfl, rfl, by simp, fun h => ⟨?_, fun _ => hsteady h⟩,
      rfl⟩
    rw [hlife]
    simp
  | continues pid =>
    simp only [move, Option.ite_none_right_eq_some, Option.some.injEq] at hmove
    obtain ⟨⟨hmem, hlife⟩, rfl⟩ := hmove
    exact .inl ⟨pid, _, hmem, by rw [hlife]; rfl, rfl, by simp, fun h => (hsteady h).elim, rfl⟩
  | handler pid =>
    simp only [move] at hmove
    split at hmove
    · cases hmove
    · rename_i hmask
      split at hmove
      · rename_i status hlife
        cases hmove
        exact .inr ⟨pid, status, by simpa using hmask, hlife, rfl⟩
      · cases hmove

theorem frame_move (h : MoveStep steady s m t) : Frame s t := by
  rcases move_cases h with ⟨pid, life, -, -, -, -, -, rfl⟩ | ⟨pid, status, -, -, rfl⟩
  · exact frame_setLife s pid life
  · exact frame_reap s pid status _

/-- Groups are judged by the states of their processes. -/
theorem alive_congr (hframe : Frame s t)
    (hkids : ∀ p, s.pgrp p = some q → unreaped (t.kids p) = unreaped (s.kids p)) :
    Alive t q ↔ Alive s q := by
  unfold Alive
  rw [hframe.pids, hframe.pgrp]
  refine exists_congr fun p => and_congr_right fun _ => and_congr_right fun hp => ?_
  rw [hkids p hp]

theorem hasStopped_congr (hframe : Frame s t)
    (hkids : ∀ p ∈ s.pids, s.pgrp p = some q → (t.kids p = .stopped ↔ s.kids p = .stopped)) :
    HasStopped t q ↔ HasStopped s q := by
  unfold HasStopped
  rw [hframe.pids, hframe.pgrp]
  exact exists_congr fun p => and_congr_right fun hmem => and_congr_right fun hp => hkids p hmem hp

theorem setLife_kids (s : State) (pid : ℕ) (life : Life) (p : ℕ) :
    (s.setLife pid life).kids p = if p = pid then life else s.kids p := by
  by_cases hp : p = pid
  · subst hp
    rw [if_pos rfl]
    exact Function.update_self _ _ _
  · rw [if_neg hp]
    exact Function.update_of_ne hp _ _

/-- A change after which a process is still not reaped. -/
theorem unreaped_setLife (hold : unreaped (s.kids pid) = true)
    (hnew : unreaped life = true) (p : ℕ) :
    unreaped ((s.setLife pid life).kids p) = unreaped (s.kids p) := by
  rw [setLife_kids]
  split
  · rename_i hp
    rw [hp, hold, hnew]
  · rfl

/-- **A group that the shell does not wait for stays alive**, or the tables become stale. -/
theorem alive_move (hstep : MoveStep steady s m t) (hq : s.fgJob ≠ some q)
    (h : s.stale = false → Alive s q) (hstale : t.stale = false) : Alive t q := by
  rcases move_cases hstep with ⟨pid, life, -, hold, hnew, -, -, rfl⟩ | ⟨pid, status, -, -, rfl⟩
  · have hsame := alive_congr (q := q) (frame_setLife s pid life) fun p _ =>
      unreaped_setLife hold hnew p
    exact hsame.mpr (h hstale)
  · -- The handler has reaped `pid`; only its own group can have lost its last process.
    simp only [Bool.or_eq_false_iff, decide_eq_false_iff_not] at hstale
    obtain ⟨hstale, hmiss⟩ := hstale
    by_cases hgroup : s.pgrp pid = some q
    · by_contra hdead
      exact hmiss (.inr ⟨q, hgroup, hq, hdead⟩)
    · refine (alive_congr (frame_reap s pid status _) fun p hp => ?_).mpr (h hstale)
      have hne : p ≠ pid := by
        rintro rfl
        exact hgroup hp
      change unreaped ((s.setLife pid (.reaped status)).kids p) = _
      rw [setLife_kids, if_neg hne]

/-- The leader of a command that is being launched stays unreaped, or the tables become
stale. -/
theorem unreaped_move (hstep : MoveStep steady s m t) (hlaunch : s.launching = true)
    (hfg : s.fgJob = some p) (h : s.stale = false → unreaped (s.kids p) = true)
    (hstale : t.stale = false) : unreaped (t.kids p) = true := by
  rcases move_cases hstep with ⟨pid, life, -, hold, hnew, -, -, rfl⟩ | ⟨pid, status, -, -, rfl⟩
  · rw [unreaped_setLife hold hnew]
    exact h hstale
  · simp only [Bool.or_eq_false_iff, decide_eq_false_iff_not] at hstale
    obtain ⟨hstale, hmiss⟩ := hstale
    have hne : p ≠ pid := by
      rintro rfl
      exact hmiss (.inl ⟨hlaunch, hfg⟩)
    change unreaped ((s.setLife pid (.reaped status)).kids p) = true
    rw [setLife_kids, if_neg hne]
    exact h hstale

/-- While the signal is blocked nobody is reaped. -/
theorem unreaped_move_of_masked (hstep : MoveStep steady s m t) (hmask : s.masked = true) :
    unreaped (t.kids p) = unreaped (s.kids p) := by
  rcases move_cases hstep with ⟨pid, life, -, hold, hnew, -, -, rfl⟩ | ⟨pid, status, hfree, -, -⟩
  · exact unreaped_setLife hold hnew p
  · rw [hmask] at hfree
    cases hfree

/-- In a steady session a stopped process stays stopped. -/
theorem stopped_move (hsteady : steady) (hstep : MoveStep steady s m t)
    (h : s.kids p = .stopped) : t.kids p = .stopped := by
  have hkeep : ∀ pid life, s.kids pid ≠ .stopped → (s.setLife pid life).kids p = .stopped := by
    intro pid life hpid
    have hne : p ≠ pid := by
      rintro rfl
      exact hpid h
    rw [setLife_kids, if_neg hne]
    exact h
  rcases move_cases hstep with ⟨pid, life, -, -, -, -, hlife, rfl⟩ | ⟨pid, status, -, hlife, rfl⟩
  · exact hkeep pid life (hlife hsteady).1
  · exact hkeep pid _ (by rw [hlife]; simp)

/-- In a steady session a process that does not have the terminal does not stop. -/
theorem not_stopped_move (hsteady : steady) (hstep : MoveStep steady s m t)
    (hp : s.tty = none ∨ s.pgrp p ≠ s.tty) (h : s.kids p ≠ .stopped) : t.kids p ≠ .stopped := by
  rcases move_cases hstep with ⟨pid, life, -, -, -, -, hlife, rfl⟩ | ⟨pid, status, -, -, rfl⟩
  · rw [setLife_kids]
    split
    · rename_i heq
      intro hstop
      obtain ⟨hsome, hgroup⟩ := (hlife hsteady).2 hstop
      rcases hp with hp | hp
      · exact hsome hp
      · exact hp (heq ▸ hgroup)
    · exact h
  · change (s.setLife pid (.reaped status)).kids p ≠ .stopped
    rw [setLife_kids]
    split
    · simp
    · exact h

/-- So a group that does not have the terminal keeps what it has. -/
theorem hasStopped_move (hsteady : steady) (hstep : MoveStep steady s m t)
    (hq : s.tty ≠ some q) : HasStopped t q ↔ HasStopped s q := by
  have hframe := frame_move hstep
  refine hasStopped_congr hframe fun p _ hp => ⟨fun h => ?_, stopped_move hsteady hstep⟩
  by_contra hrun
  refine not_stopped_move hsteady hstep (.inr ?_) hrun h
  rw [hp]
  exact hq.symm

/-! ### The invariant -/

/-- What holds all the time; `ex` is a group whose flag does not matter now. -/
structure Base (steady : Prop) (ex : Option ℕ) (s : State) : Prop where
  /-- An active entry stands for a job with a process that has not been reaped. -/
  alive : s.stale = false → ∀ g ∈ s.tables.groups, g.active = true → s.fgJob ≠ some g.pgid →
    Alive s g.pgid
  /-- Its flag tells whether a process of it is stopped. -/
  flags : steady → ∀ g ∈ s.tables.groups, g.active = true → ex ≠ some g.pgid →
    (g.stopped = true ↔ HasStopped s g.pgid)
  /-- Nobody else has the terminal. -/
  tty : ∀ q, s.tty = some q → ex = some q
  /-- The processes that are still in the group of the shell are not stopped. -/
  free : steady → ∀ p ∈ s.pids, s.pgrp p = none → s.kids p ≠ .stopped
  /-- Nobody terminates with the status of a stopped process. -/
  status : ∀ p, s.kids p ≠ .terminated .stopped ∧ s.kids p ≠ .reaped .stopped
  /-- Groups are named after processes, and each has one entry. -/
  listed : ∀ g ∈ s.tables.groups, g.pgid ∈ s.pids
  nodup : (s.tables.groups.map (·.pgid)).Nodup
  grouped : ∀ p q, s.pgrp p = some q → p ∈ s.pids ∧ q ∈ s.pids
  /-- The members that are registered belong to their groups. -/
  members : ∀ k ∈ s.tables.procKeys, s.pgrp k.2 = some k.1

variable {ex : Option ℕ}

theorem base_start (steady : Prop) : Base steady none {} where
  alive := fun _ g hg => by cases hg
  flags := fun _ g hg => by cases hg
  tty := fun q hq => by cases hq
  free := fun _ p hp => by cases hp
  status := fun p => ⟨by simp, by simp⟩
  listed := fun g hg => by cases hg
  nodup := List.nodup_nil
  grouped := fun p q h => by cases h
  members := fun k hk => by cases hk

/-- The parts that do not speak about the states of processes. -/
theorem Base.of_frame (h : Base steady ex s) (hframe : Frame s t)
    (halive : t.stale = false → ∀ g ∈ s.tables.groups, g.active = true → s.fgJob ≠ some g.pgid →
      Alive t g.pgid)
    (hflags : steady → ∀ q, ex ≠ some q → (HasStopped t q ↔ HasStopped s q))
    (hfree : steady → ∀ p ∈ s.pids, s.pgrp p = none → t.kids p ≠ .stopped)
    (hstatus : ∀ p, t.kids p ≠ .terminated .stopped ∧ t.kids p ≠ .reaped .stopped) :
    Base steady ex t where
  alive := by
    rw [hframe.groups, hframe.fgJob]
    exact halive
  flags := by
    rw [hframe.groups]
    intro hsteady g hg hactive hex
    rw [hflags hsteady g.pgid hex]
    exact h.flags hsteady g hg hactive hex
  tty := by
    rw [hframe.tty]
    exact h.tty
  free := by
    rw [hframe.pids, hframe.pgrp]
    exact hfree
  status := hstatus
  listed := by
    rw [hframe.groups, hframe.pids]
    exact h.listed
  nodup := by
    rw [hframe.groups]
    exact h.nodup
  grouped := by
    rw [hframe.pgrp, hframe.pids]
    exact h.grouped
  members := by
    rw [hframe.keys, hframe.pgrp]
    exact h.members

theorem Base.status_setLife (h : Base steady ex s)
    (hterm : life ≠ .terminated .stopped) (hreaped : life ≠ .reaped .stopped) (p : ℕ) :
    (s.setLife pid life).kids p ≠ .terminated .stopped ∧
      (s.setLife pid life).kids p ≠ .reaped .stopped := by
  rw [setLife_kids]
  split
  · exact ⟨hterm, hreaped⟩
  · exact h.status p

/-- **A move keeps the invariant.** -/
theorem Base.move (h : Base steady ex s) (hstep : MoveStep steady s m t) : Base steady ex t := by
  refine h.of_frame (frame_move hstep) ?_ ?_ ?_ ?_
  · intro hstale g hg hactive hfg
    exact alive_move hstep hfg (fun hs => h.alive hs g hg hactive hfg) hstale
  · intro hsteady q hex
    exact hasStopped_move hsteady hstep fun htty => hex (h.tty q htty)
  · intro hsteady p hp hgroup
    refine not_stopped_move hsteady hstep ?_ (h.free hsteady p hp hgroup)
    rw [hgroup]
    cases s.tty with
    | none => exact .inl rfl
    | some q => exact .inr (by simp)
  · intro p
    rcases move_cases hstep with
      ⟨pid, life, -, -, hnew, hlife, -, rfl⟩ | ⟨pid, status, -, hpid, rfl⟩
    · refine h.status_setLife hlife ?_ p
      rintro rfl
      cases hnew
    · refine h.status_setLife (by simp) ?_ p
      intro heq
      cases heq
      exact (h.status pid).1 hpid

/-- What every move keeps, any number of moves keeps. -/
theorem Moves.induct {P : State → Prop} (hP : ∀ {s m t}, P s → MoveStep steady s m t → P t)
    (h : Moves steady s t) (hs : P s) : P t := by
  obtain ⟨ms, hrun⟩ := h
  exact hrun.invariant (fun _ _ _ hs hstep => hP hs hstep) hs

theorem Moves.refl (s : State) : Moves steady s s := ⟨[], .nil s⟩

theorem Base.moves (h : Base steady ex s) (hmoves : Moves steady s t) : Base steady ex t :=
  hmoves.induct (fun h hstep => h.move hstep) h

theorem frame_moves (h : Moves steady s t) : Frame s t := by
  refine h.induct (P := fun t => Frame s t) ?_ ⟨rfl, rfl, rfl, rfl, rfl, rfl, rfl, rfl⟩
  intro t m u h hstep
  have h' := frame_move hstep
  exact ⟨h'.groups.trans h.groups, h'.keys.trans h.keys, h'.pids.trans h.pids,
    h'.pgrp.trans h.pgrp, h'.masked.trans h.masked, h'.tty.trans h.tty,
    h'.launching.trans h.launching, h'.fgJob.trans h.fgJob⟩

/-! ### The steps of the shell -/

/-- The shell reaps a process of the job that it waits for, or one without a group. -/
theorem Base.reapOwn (h : Base steady ex s) {status : Status}
    (hlife : s.kids pid = .terminated status)
    (hgroup : s.pgrp pid = none ∨ s.pgrp pid = s.fgJob) :
    Base steady ex (s.setLife pid (.reaped status)) := by
  refine h.of_frame (frame_setLife s pid _) ?_ ?_ ?_ ?_
  · intro hstale g hg hactive hfg
    refine (alive_congr (frame_setLife s pid _) fun p hp => ?_).mpr
      (h.alive hstale g hg hactive hfg)
    rw [setLife_kids, if_neg]
    rintro rfl
    rcases hgroup with hnone | hjob
    · rw [hnone] at hp
      cases hp
    · exact hfg (hjob ▸ hp)
  · intro _ q _
    refine hasStopped_congr (frame_setLife s pid _) fun p _ _ => ?_
    rw [setLife_kids]
    split
    · rename_i heq
      rw [heq, hlife]
      simp
    · exact Iff.rfl
  · intro hsteady p hp hnone
    rw [setLife_kids]
    split
    · simp
    · exact h.free hsteady p hp hnone
  · refine h.status_setLife (by simp) fun heq => ?_
    cases heq
    exact (h.status pid).1 hlife

theorem unreaped_signalled (sig : ℕ) (life : Life) :
    unreaped (signalled sig life) = unreaped life := by
  cases life with
  | running | stopped =>
    simp only [signalled]
    split
    · rfl
    · split <;> rfl
  | _ => rfl

theorem signalled_status {sig : ℕ}
    (h : life ≠ .terminated .stopped ∧ life ≠ .reaped .stopped) :
    signalled sig life ≠ .terminated .stopped ∧ signalled sig life ≠ .reaped .stopped := by
  cases life with
  | running | stopped =>
    simp only [signalled]
    split
    · simp
    · split <;> simp
  | _ => exact h

/-- A signal that changes in no process but those of `ex` whether it is stopped. -/
theorem Base.kill (h : Base steady ex s) {meant : ℕ → Bool} {sig : ℕ}
    (hsig : steady → ∀ p ∈ s.pids, meant p = true → ex = s.pgrp p ∧ ex ≠ none ∨
      (signalled sig (s.kids p) = .stopped ↔ s.kids p = .stopped)) :
    Base steady ex (s.kill meant sig) := by
  have hkids : ∀ p, (s.kill meant sig).kids p =
      if meant p = true then signalled sig (s.kids p) else s.kids p := fun _ => rfl
  have hframe : Frame s (s.kill meant sig) := ⟨rfl, rfl, rfl, rfl, rfl, rfl, rfl, rfl⟩
  refine h.of_frame hframe ?_ ?_ ?_ ?_
  · intro hstale g hg hactive hfg
    refine (alive_congr hframe fun p _ => ?_).mpr (h.alive hstale g hg hactive hfg)
    rw [hkids]
    split
    · exact unreaped_signalled sig _
    · rfl
  · intro hsteady q hex
    refine hasStopped_congr hframe fun p hp hgroup => ?_
    rw [hkids]
    split
    · rename_i hmeant
      rcases hsig hsteady p hp hmeant with ⟨hq, -⟩ | hsame
      · exact absurd (hq.trans hgroup) hex
      · exact hsame
    · exact Iff.rfl
  · intro hsteady p hp hnone
    rw [hkids]
    split
    · rename_i hmeant
      rcases hsig hsteady p hp hmeant with ⟨hq, hsome⟩ | hsame
      · exact absurd (hq.trans hnone) hsome
      · exact fun hstop => h.free hsteady p hp hnone (hsame.mp hstop)
    · exact h.free hsteady p hp hnone
  · intro p
    rw [hkids]
    split
    · exact signalled_status (h.status p)
    · exact h.status p

/-- A process is forked; it has no group yet. -/
theorem Base.fork (h : Base steady ex s) (hnew : pid ∉ s.pids) {fgJob : Option ℕ}
    (hfg : s.fgJob = none ∨ fgJob = s.fgJob) :
    Base steady ex { s with
      pids := s.pids ++ [pid]
      kids := Function.update s.kids pid .running
      pgrp := Function.update s.pgrp pid none
      fgJob := fgJob } := by
  have hgroup : ∀ p q, Function.update s.pgrp pid none p = some q ↔ s.pgrp p = some q := by
    intro p q
    by_cases hp : p = pid
    · subst hp
      rw [Function.update_self]
      exact ⟨fun h => (by cases h), fun hp => absurd (h.grouped p q hp).1 hnew⟩
    · rw [Function.update_of_ne hp]
  have hne : ∀ p q, s.pgrp p = some q → p ≠ pid := fun p q hp heq =>
    hnew (heq ▸ (h.grouped p q hp).1)
  refine ⟨?_, ?_, h.tty, ?_, ?_, ?_, h.nodup, ?_, ?_⟩
  · intro hstale g hg hactive hexempt
    have hold : s.fgJob ≠ some g.pgid := by
      rcases hfg with hnone | heq
      · rw [hnone]
        simp
      · exact heq ▸ hexempt
    obtain ⟨p, hp, hpg, hlife⟩ := h.alive hstale g hg hactive hold
    refine ⟨p, List.mem_append_left _ hp, (hgroup p _).mpr hpg, ?_⟩
    change unreaped (Function.update s.kids pid .running p) = true
    rw [Function.update_of_ne (hne p _ hpg)]
    exact hlife
  · intro hsteady g hg hactive hex
    rw [h.flags hsteady g hg hactive hex]
    constructor
    · rintro ⟨p, hp, hpg, hlife⟩
      refine ⟨p, List.mem_append_left _ hp, (hgroup p _).mpr hpg, ?_⟩
      exact (Function.update_of_ne (hne p _ hpg) _ _).trans hlife
    · rintro ⟨p, -, hpg, hlife⟩
      have hold := (hgroup p _).mp hpg
      refine ⟨p, (h.grouped p _ hold).1, hold, ?_⟩
      exact (Function.update_of_ne (hne p _ hold) _ _).symm.trans hlife
  · intro hsteady p hp hnone
    by_cases heq : p = pid
    · subst heq
      change Function.update s.kids p .running p ≠ .stopped
      rw [Function.update_self]
      simp
    · change Function.update s.kids pid .running p ≠ .stopped
      rw [Function.update_of_ne heq]
      have hold : s.pgrp p = none := (Function.update_of_ne heq _ _).symm.trans hnone
      refine h.free hsteady p ?_ hold
      simpa [heq] using hp
  · intro p
    by_cases heq : p = pid
    · subst heq
      change Function.update s.kids p .running p ≠ _ ∧ Function.update s.kids p .running p ≠ _
      rw [Function.update_self]
      simp
    · change Function.update s.kids pid .running p ≠ _ ∧ Function.update s.kids pid .running p ≠ _
      rw [Function.update_of_ne heq]
      exact h.status p
  · exact fun g hg => List.mem_append_left _ (h.listed g hg)
  · intro p q hpq
    obtain ⟨hp, hq⟩ := h.grouped p q ((hgroup p q).mp hpq)
    exact ⟨List.mem_append_left _ hp, List.mem_append_left _ hq⟩
  · exact fun k hk => (hgroup _ _).mpr (h.members k hk)

/-- A process joins a group, unless it is there already. -/
theorem Base.setpgid (h : Base steady ex s) (hpid : pid ∈ s.pids) (hq : q ∈ s.pids)
    (hgroup : s.pgrp pid = none ∨ s.pgrp pid = some q)
    (hkeys : ∀ k ∈ s.tables.procKeys, k.2 = pid → k.1 = q) :
    Base steady ex { s with pgrp := Function.update s.pgrp pid (some q) } := by
  have hmono : ∀ p q', s.pgrp p = some q' → Function.update s.pgrp pid (some q) p = some q' := by
    intro p q' hp
    by_cases heq : p = pid
    · subst heq
      rw [Function.update_self]
      rcases hgroup with hnone | hsome
      · rw [hnone] at hp
        cases hp
      · exact hsome ▸ hp
    · rw [Function.update_of_ne heq]
      exact hp
  have hback : ∀ p q', Function.update s.pgrp pid (some q) p = some q' →
      s.pgrp p = some q' ∨ (p = pid ∧ q' = q ∧ s.pgrp p = none) := by
    intro p q' hp
    by_cases heq : p = pid
    · subst heq
      rw [Function.update_self] at hp
      cases hp
      rcases hgroup with hnone | hsome
      · exact .inr ⟨rfl, rfl, hnone⟩
      · exact .inl hsome
    · rw [Function.update_of_ne heq] at hp
      exact .inl hp
  refine ⟨?_, ?_, h.tty, ?_, h.status, h.listed, h.nodup, ?_, ?_⟩
  · intro hstale g hg hactive hfg
    obtain ⟨p, hp, hpg, hlife⟩ := h.alive hstale g hg hactive hfg
    exact ⟨p, hp, hmono p _ hpg, hlife⟩
  · intro hsteady g hg hactive hex
    rw [h.flags hsteady g hg hactive hex]
    constructor
    · rintro ⟨p, hp, hpg, hlife⟩
      exact ⟨p, hp, hmono p _ hpg, hlife⟩
    · rintro ⟨p, hp, hpg, hlife⟩
      rcases hback p _ hpg with hold | ⟨-, -, hnone⟩
      · exact ⟨p, hp, hold, hlife⟩
      · exact absurd hlife (h.free hsteady p hp hnone)
  · intro hsteady p hp hnone
    refine h.free hsteady p hp ?_
    by_cases heq : p = pid
    · subst heq
      change Function.update s.pgrp p (some q) p = none at hnone
      rw [Function.update_self] at hnone
      cases hnone
    · exact (Function.update_of_ne heq _ _).symm.trans hnone
  · intro p q' hpq
    rcases hback p q' hpq with hold | ⟨rfl, rfl, -⟩
    · exact h.grouped p q' hold
    · exact ⟨hpid, hq⟩
  · intro k hk
    by_cases heq : k.2 = pid
    · rw [heq, hkeys k hk heq]
      exact Function.update_self _ _ _
    · exact (Function.update_of_ne heq _ _).trans (h.members k hk)

/-! ### The table of groups -/

/-- A new entry, for a group that has none yet. -/
theorem Base.groupAdd (h : Base steady ex s) {lead : ℕ} {name : Str} (hlead : lead ∈ s.pids)
    (hnew : ∀ g ∈ s.tables.groups, g.pgid ≠ lead)
    (halive : s.stale = false → s.fgJob ≠ some lead → Alive s lead)
    (hcalm : steady → ex ≠ some lead → ¬HasStopped s lead) :
    Base steady ex { s with tables := Jobs.groupAdd s.tables lead name } := by
  by_cases hroom : s.tables.groups.length < Jobs.maxJobs
  · have hgroups : (Jobs.groupAdd s.tables lead name).groups = s.tables.groups ++
        [⟨lead, s.tables.nextJobNumber, Jobs.strncpy 256 name, true, false⟩] := by
      rw [Jobs.groupAdd, if_pos hroom]
    have hkeys : (Jobs.groupAdd s.tables lead name).procKeys = s.tables.procKeys := by
      rw [Jobs.groupAdd, if_pos hroom]
      rfl
    -- Every statement about an entry splits into the old entries and the new one.
    refine ⟨?_, ?_, h.tty, h.free, h.status, ?_, ?_, h.grouped, ?_⟩
    · intro hstale g hg hactive hfg
      rw [hgroups] at hg
      rcases List.mem_append.mp hg with hg | hg
      · exact h.alive hstale g hg hactive hfg
      · rw [List.mem_singleton.mp hg] at hfg ⊢
        exact halive hstale hfg
    · intro hsteady g hg hactive hex
      rw [hgroups] at hg
      rcases List.mem_append.mp hg with hg | hg
      · exact h.flags hsteady g hg hactive hex
      · rw [List.mem_singleton.mp hg] at hex ⊢
        exact ⟨fun hstop => (by cases hstop), fun hstop => absurd hstop (hcalm hsteady hex)⟩
    · intro g hg
      rw [hgroups] at hg
      rcases List.mem_append.mp hg with hg | hg
      · exact h.listed g hg
      · rw [List.mem_singleton.mp hg]
        exact hlead
    · rw [hgroups, List.map_append]
      refine List.nodup_append.mpr ⟨h.nodup, List.nodup_singleton _, ?_⟩
      intro q hq q' hq' heq
      obtain ⟨g, hg, rfl⟩ := List.mem_map.mp hq
      exact hnew g hg (heq.trans (List.mem_singleton.mp hq'))
    · rw [hkeys]
      exact h.members
  · have hsame : Jobs.groupAdd s.tables lead name = s.tables := by
      rw [Jobs.groupAdd, if_neg hroom]
    rw [hsame]
    exact h

variable {pgid : ℕ}

/-- A process of the group is registered. -/
theorem Base.groupAddMember (h : Base steady ex s) {name : Str}
    (hpid : s.pgrp pid = some pgid) :
    Base steady ex { s with tables := Jobs.groupAddMember s.tables pgid pid name } := by
  have hgroups : (Jobs.groupAddMember s.tables pgid pid name).groups = s.tables.groups := by
    unfold Jobs.groupAddMember
    split <;> rfl
  refine ⟨?_, ?_, h.tty, h.free, h.status, ?_, ?_, h.grouped, ?_⟩
  · rw [hgroups]
    exact h.alive
  · rw [hgroups]
    exact h.flags
  · rw [hgroups]
    exact h.listed
  · rw [hgroups]
    exact h.nodup
  · intro k hk
    rw [procKeys_groupAddMember] at hk
    split at hk
    · rcases List.mem_append.mp hk with hk | hk
      · exact h.members k hk
      · rw [List.mem_singleton.mp hk]
        exact hpid
    · exact h.members k hk

/-- At most one entry is found by a search for a group. -/
theorem Base.mem_updateFirst (h : Base steady ex s) {f : ProcGroup → ProcGroup} {g : ProcGroup}
    (hg : g ∈ Lib.updateFirst (ProcGroup.isFor pgid) f s.tables.groups) :
    (g ∈ s.tables.groups ∧ ProcGroup.isFor pgid g = false) ∨
      ∃ a ∈ s.tables.groups, ProcGroup.isFor pgid a = true ∧ g = f a := by
  refine Lib.mem_updateFirst_of_nodup h.nodup (fun a _ b _ ha hb => ?_) hg
  simp only [ProcGroup.isFor, Bool.and_eq_true, beq_iff_eq] at ha hb
  exact ha.1.trans hb.1.symm

theorem ne_of_isFor_eq_false {g : ProcGroup} (h : ProcGroup.isFor pgid g = false)
    (hactive : g.active = true) : g.pgid ≠ pgid := by
  rintro rfl
  simp [ProcGroup.isFor, hactive] at h

/-- What the entries say after the first entry of a group has been changed. -/
theorem Base.updateGroup (h : Base steady ex s) {f : ProcGroup → ProcGroup} {tables : JobTables}
    {ex' tty fgJob : Option ℕ}
    (hgroups : tables.groups = Lib.updateFirst (ProcGroup.isFor pgid) f s.tables.groups)
    (hkeys : tables.procKeys = s.tables.procKeys) (hf : ∀ g, (f g).pgid = g.pgid)
    (hold : ∀ q, q ≠ pgid → (fgJob ≠ some q → s.fgJob ≠ some q) ∧ (ex' ≠ some q → ex ≠ some q))
    (htty : ∀ q, tty = some q → ex' = some q)
    (hnew : ∀ g ∈ s.tables.groups, g.pgid = pgid → g.active = true → (f g).active = true →
      (s.stale = false → fgJob ≠ some pgid → Alive s pgid) ∧
        (steady → ex' ≠ some pgid → ((f g).stopped = true ↔ HasStopped s pgid))) :
    Base steady ex' { s with tables := tables, tty := tty, fgJob := fgJob } := by
  have hfound : ∀ {a}, ProcGroup.isFor pgid a = true → a.pgid = pgid ∧ a.active = true := by
    intro a ha
    simpa [ProcGroup.isFor] using ha
  refine ⟨?_, ?_, htty, h.free, h.status, ?_, ?_, h.grouped, ?_⟩
  · intro hstale g hg hactive hfg
    rw [hgroups] at hg
    rcases h.mem_updateFirst hg with ⟨hg, hother⟩ | ⟨a, ha, hfor, rfl⟩
    · exact h.alive hstale g hg hactive
        ((hold g.pgid (ne_of_isFor_eq_false hother hactive)).1 hfg)
    · obtain ⟨hpgid, hwas⟩ := hfound hfor
      rw [hf, hpgid] at hfg ⊢
      exact (hnew a ha hpgid hwas hactive).1 hstale hfg
  · intro hsteady g hg hactive hex
    rw [hgroups] at hg
    rcases h.mem_updateFirst hg with ⟨hg, hother⟩ | ⟨a, ha, hfor, rfl⟩
    · exact h.flags hsteady g hg hactive
        ((hold g.pgid (ne_of_isFor_eq_false hother hactive)).2 hex)
    · obtain ⟨hpgid, hwas⟩ := hfound hfor
      rw [hf, hpgid] at hex ⊢
      exact (hnew a ha hpgid hwas hactive).2 hsteady hex
  · intro g hg
    rw [hgroups] at hg
    rcases h.mem_updateFirst hg with ⟨hg, -⟩ | ⟨a, ha, -, rfl⟩
    · exact h.listed g hg
    · rw [hf]
      exact h.listed a ha
  · rw [hgroups, Lib.map_updateFirst fun a _ => hf a]
    exact h.nodup
  · rw [hkeys]
    exact h.members

/-- **The flag is right again** once it has been set to what the processes are. -/
theorem Base.setFlag (h : Base steady ex s) {b : Bool} {tables : JobTables}
    (hgroups : tables.groups =
      Lib.updateFirst (ProcGroup.isFor pgid) (fun g => { g with stopped := b }) s.tables.groups)
    (hkeys : tables.procKeys = s.tables.procKeys) (hex : ∀ q, ex = some q → q = pgid)
    (htty : s.tty = none) (hfg : s.fgJob = none) (hb : steady → (b = true ↔ HasStopped s pgid)) :
    Base steady none { s with tables := tables } := by
  have hupdate : Base steady none
      { s with tables := tables, tty := s.tty, fgJob := s.fgJob } := by
    refine h.updateGroup hgroups hkeys (fun _ => rfl)
      (fun q hq => ⟨id, fun _ heq => hq (hex q heq)⟩) (fun q hq => ?_) ?_
    · rw [htty] at hq
      cases hq
    · intro g hg hpgid hactive _
      refine ⟨fun hstale _ => ?_, fun hsteady _ => hb hsteady⟩
      have halive := h.alive hstale g hg hactive (by rw [hfg]; simp)
      exact hpgid ▸ halive
  exact hupdate

/-- **A group that is removed is forgotten.** -/
theorem Base.remove (h : Base steady ex s) (hex : ∀ q, ex = some q → q = pgid)
    (hfg : ∀ q, s.fgJob = some q → q = pgid) :
    Base steady none
      { s with tables := Jobs.groupRemove s.tables pgid, tty := none, fgJob := none } := by
  refine h.updateGroup (f := fun g => { g with active := false }) rfl
    (procKeys_groupRemove s.tables pgid) (fun _ => rfl) (fun q hq => ⟨?_, ?_⟩)
    (fun q hq => (by cases hq)) fun g _ _ _ hactive => (by cases hactive)
  · exact fun _ heq => hq (hfg q heq)
  · exact fun _ heq => hq (hex q heq)

end Control
end RuShell
