import RuShell.Grouping

/-!
# Stopped stages

The shell waits for every stage of a foreground pipeline, until it has ended or stopped.
It keeps only the status of the first stage, and decides by that one whether the job has
stopped.  A pipeline whose first stage has ended while a later one stops is removed from
the tables, and with it the stopped process.

## Main results

* `stopped_stage_kept` — a job with a stopped stage stays in the tables, is marked and
  reported, and a job is removed only when every stage has ended, exactly if the first
  stage is stopped whenever some stage is and the job has an entry of its own then.
* `stopped_stage_forgotten` — the second stage has stopped, and the job is removed.
-/

namespace RuShell
namespace Redirect

open Lib.Posix
open RuShell.Segment
open RuShell.Jobs (JobTables ProcEntry ProcGroup)

variable {t : JobTables} {leader : ℕ} {name : Str} {pids : List (Option ℕ)}
  {recorded : List (ℕ × Status)} {l l' : LaunchState}
  {stages : List CommandStage}

/-- No active entry is for the group. -/
def Unused (t : JobTables) (pgid : ℕ) : Prop := ∀ g ∈ t.groups, g.isFor pgid = false

instance (t : JobTables) (pgid : ℕ) : Decidable (Unused t pgid) :=
  inferInstanceAs (Decidable (∀ g ∈ t.groups, g.isFor pgid = false))

/-- The entry that `group_add` makes. -/
def newGroup (t : JobTables) (leader : ℕ) (name : Str) : ProcGroup :=
  ⟨leader, t.nextJobNumber, Jobs.strncpy 256 name, true, false⟩

theorem isFor_newGroup (t : JobTables) (leader : ℕ) (name : Str) :
    (newGroup t leader name).isFor leader = true := by
  simp [newGroup, ProcGroup.isFor]

theorem groups_groupAdd (hroom : t.groups.length < Jobs.maxJobs) :
    (Jobs.groupAdd t leader name).groups = t.groups ++ [newGroup t leader name] := by
  rw [Jobs.groupAdd, if_pos hroom]
  rfl

/-- The number of a job that has stopped. -/
theorem Registered.markGroupStopped (h : Registered t leader stages pids recorded l)
    (hroom : t.groups.length < Jobs.maxJobs) (hunused : Unused t leader) :
    (Jobs.markGroupStopped l.tables leader).1 = t.nextJobNumber := by
  have hfind : l.tables.groups.find? (ProcGroup.isFor leader) =
      some (newGroup t leader (joinPipeline stages 256)) := by
    have hnone : t.groups.find? (ProcGroup.isFor leader) = none :=
      List.find?_eq_none.mpr fun g hg => by simp [hunused g hg]
    rw [h.groups, groups_groupAdd hroom, List.find?_append, hnone, Option.none_or,
      List.find?_cons_of_pos (isFor_newGroup t leader _)]
  rw [Jobs.markGroupStopped, hfind]
  rfl

/-- **The entry of the job after the decision**, which is by the status of the first
stage. -/
theorem Decided.group {status : Status} (hreg : Registered t leader stages pids recorded l)
    (h : Decided leader name status l l') :
    l'.tables.groups[t.groups.length]? = if t.groups.length < Jobs.maxJobs then
      some (let g := newGroup t leader (joinPipeline stages 256)
        if Unused t leader then
          if status = .stopped then { g with stopped := true } else { g with active := false }
        else g)
      else none := by
  rw [h.groups, hreg.groups]
  by_cases hroom : t.groups.length < Jobs.maxJobs
  · rw [if_pos hroom, groups_groupAdd hroom,
      Lib.getElem?_updateFirst_concat (isFor_newGroup t leader _)]
    rfl
  · rw [if_neg hroom, Jobs.groupAdd, if_neg hroom]
    exact List.getElem?_eq_none (Nat.le_of_eq Lib.length_updateFirst)

/-- Every stage has been waited for. -/
theorem Registered.waited (h : Registered t leader stages pids recorded l)
    (hpids : recorded.map Prod.fst = pids.flatMap Option.toList) {pid i : ℕ}
    (hpid : (pid, Role.stage i) ∈ l.forked) : ∃ status, (pid, status) ∈ recorded := by
  have hmem : pid ∈ recorded.map Prod.fst := by
    rw [hpids]
    exact List.mem_flatMap.mpr ⟨_, h.staged _ hpid i rfl, List.mem_singleton_self pid⟩
  obtain ⟨⟨q, status⟩, hq, rfl⟩ := List.mem_map.mp hmem
  exact ⟨status, hq⟩

/-- The first stage has been waited for once. -/
theorem Registered.status_eq {status s : Status}
    (h : Registered t leader stages pids ((leader, status) :: recorded) l)
    (hpids : ((leader, status) :: recorded).map Prod.fst = pids.flatMap Option.toList)
    (hs : (leader, s) ∈ (leader, status) :: recorded) : status = s := by
  have hnodup := h.nodup
  rw [← hpids, List.map_cons, List.nodup_cons] at hnodup
  rcases List.mem_cons.mp hs with heq | hnew
  · exact (Prod.mk.inj heq).2.symm
  · exact absurd (List.mem_map.mpr ⟨_, hnew, rfl⟩) hnodup.1

/-- The entry that this launch has made says whether a stage has stopped: it is kept and
marked if one has, and a message is printed; it is removed only if every stage has ended. -/
def StopKept (t : JobTables) (leader : ℕ) (stages : List CommandStage) (l : LaunchState) : Prop :=
  ((∃ pid, (pid, Status.stopped) ∈ l.statuses) → ∃ g, l.tables.groups[t.groups.length]? = some g ∧
    g.pgid = leader ∧ g.active = true ∧ g.stopped = true ∧
      stoppedMessage g.jobId (joinPipeline stages 256) ∈ l.out) ∧
  ((∀ g ∈ l.tables.groups[t.groups.length]?, g.active = false) →
    ∀ pid i, (pid, Role.stage i) ∈ l.forked →
      ∃ status, (pid, status) ∈ l.statuses ∧ status ≠ .stopped)

/-- **A foreground pipeline with a stopped stage is kept exactly if** the first stage has
stopped, and the table has room for its entry and no other active one for the group. -/
theorem stopped_stage_kept {env : Env} {z : ℤ}
    (hstages : 2 ≤ stages.length)
    (hrun : Exec launchEffect (executePipeline env stages) { tables := t } z l)
    (hfirst : (leader, Role.stage 0) ∈ l.forked) :
    StopKept t leader stages l ↔ ((∃ pid, (pid, Status.stopped) ∈ l.statuses) →
      (leader, Status.stopped) ∈ l.statuses ∧ t.groups.length < Jobs.maxJobs ∧
        Unused t leader) := by
  obtain ⟨-, -, hnot⟩ | ⟨first, pids, status, new, m, hreg, hpids, hdecided⟩ :=
    wlp_iff.mp (executePipeline_decided t env hstages) z l hrun
  · exact absurd hfirst (hnot leader)
  have hstatuses : l.statuses = (first, status) :: new := by
    rw [hdecided.statuses, hreg.statuses]
  obtain rfl : leader = first := hreg.first leader (hdecided.forked ▸ hfirst)
  have hgroup := hdecided.group hreg
  constructor
  · rintro ⟨hkept, -⟩ hsome
    obtain ⟨g, hg, -, -, hstopped, -⟩ := hkept hsome
    rw [hg] at hgroup
    -- every other entry is not marked
    split at hgroup
    · rename_i hroom
      obtain rfl := Option.some.inj hgroup
      split at hstopped
      · rename_i hunused
        split at hstopped
        · rename_i hstatus
          rw [hstatuses, hstatus]
          exact ⟨List.mem_cons_self, hroom, hunused⟩
        · cases hstopped
      · cases hstopped
    · cases hgroup
  · intro hcond
    by_cases hsome : ∃ pid, (pid, Status.stopped) ∈ l.statuses
    · obtain ⟨hlead, hroom, hunused⟩ := hcond hsome
      have hstatus : status = .stopped := hreg.status_eq hpids (hstatuses ▸ hlead)
      have hmessage := hdecided.out hstatus
      rw [hreg.markGroupStopped hroom hunused] at hmessage
      rw [if_pos hroom, if_pos hunused, if_pos hstatus] at hgroup
      refine ⟨fun _ => ⟨_, hgroup, rfl, rfl, rfl, hmessage⟩, fun hall => ?_⟩
      cases hall _ hgroup
    · refine ⟨fun h => absurd h hsome, fun _ pid i hpid => ?_⟩
      obtain ⟨s, hs⟩ := hreg.waited hpids (hdecided.forked ▸ hpid)
      rw [← hstatuses] at hs
      exact ⟨s, hs, fun heq => hsome ⟨pid, heq ▸ hs⟩⟩

/-- Both stages of `a < f | b > g` stop. -/
theorem stopped_stage_kept_both : ∃ z l,
    Exec launchEffect (executePipeline plainEnv aInBOut) { tables := {} } z l ∧
    l.statuses = [(102, .stopped), (103, .stopped)] ∧ StopKept {} 102 aInBOut l := by
  have h : (play (fun _ => .stopped) (executePipeline plainEnv aInBOut) { tables := {} }).any
      (fun x => decide ((102, Role.stage 0) ∈ x.2.forked ∧
        x.2.statuses = [(102, .stopped), (103, .stopped)])) = true := by
    decide +kernel
  obtain ⟨⟨z, l⟩, hplay, hl⟩ := (Option.any_eq_true _ _).mp h
  obtain ⟨hfirst, hstatuses⟩ := of_decide_eq_true hl
  have hrun := exec_of_play hplay
  refine ⟨z, l, hrun, hstatuses, ?_⟩
  refine (stopped_stage_kept (by decide) hrun hfirst).mpr fun _ => ⟨?_, by decide, by decide⟩
  rw [hstatuses]
  exact List.mem_cons_self

/-- In `a < f | b > g` the first stage has ended when the second one stops: the job is
removed, and nothing is printed. -/
theorem stopped_stage_forgotten : ∃ z l,
    Exec launchEffect (executePipeline plainEnv aInBOut) { tables := {} } z l ∧
    (102, Role.stage 0) ∈ l.forked ∧ (103, Role.stage 1) ∈ l.forked ∧
    l.statuses = [(102, .exited), (103, .stopped)] ∧
    (l.tables.groups.map (·.pgid)) = [102] ∧ (∀ g ∈ l.tables.groups, g.active = false) ∧
    l.out = [] := by
  have h : (play (fun pid => if pid = 102 then .exited else .stopped)
      (executePipeline plainEnv aInBOut) { tables := {} }).any
      (fun x => decide ((102, Role.stage 0) ∈ x.2.forked ∧ (103, Role.stage 1) ∈ x.2.forked ∧
        x.2.statuses = [(102, .exited), (103, .stopped)] ∧
        (x.2.tables.groups.map (·.pgid)) = [102] ∧
        (∀ g ∈ x.2.tables.groups, g.active = false) ∧ x.2.out = [])) = true := by
    decide +kernel
  obtain ⟨⟨z, l⟩, hplay, hl⟩ := (Option.any_eq_true _ _).mp h
  exact ⟨z, l, exec_of_play hplay, of_decide_eq_true hl⟩

end Redirect
end RuShell
