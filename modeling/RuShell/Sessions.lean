import RuShell.ControlHome

/-!
# Sessions

A session is a sequence of launches, `resume`, `ping` and `activities`, and of what the
children do at the prompt.  Each of them takes the shell from the prompt back to the
prompt, so what is known there holds at every prompt.

The handler of `SIGCHLD` does not look at the table of groups.  When it reaps the last
process of a background job, the entry of the job stays active, and `resume`, `ping` and
the end of the session still find it, until `activities` is run.

## Main definitions

* `Flagged`, `Attended` — a job while `resume` works on it.
* `rehearse`, `perform` — a session without surprises, computed.

## Main results

* `home_run` — the tables are exact at every prompt.
* `active_means_alive` — **an active entry stands for a job that is still there**, as long
  as the tables are not stale.
* `dead_job_resumed` — otherwise `resume` continues a job that is gone.
-/

namespace RuShell
namespace Control

open Lib (Run)
open Lib.Posix
open RuShell.Segment
open RuShell.Jobs (JobTables ProcEntry ProcGroup)
open RuShell.Redirect

variable {steady : Prop} {s t u : State} {pgid : ℕ}

/-! ### `resume` -/

/-- The shell is about to set the flag of a group to `b`. -/
structure Flagged (steady : Prop) (pgid : ℕ) (b : Bool) (s : State) : Prop where
  base : Base steady (some pgid) s
  mode : s.launching = false
  job : s.fgJob = none
  tty : s.tty = none
  flag : steady → (b = true ↔ HasStopped s pgid)

/-- The shell waits for a job that has been resumed. -/
structure Attended (steady : Prop) (pgid : ℕ) (s : State) : Prop where
  base : Base steady (some pgid) s
  mode : s.launching = false
  job : s.fgJob = some pgid

theorem Flagged.moves {b : Bool} (h : Flagged steady pgid b s) (hmoves : Moves steady s t) :
    Flagged steady pgid b t := by
  refine hmoves.induct (P := Flagged steady pgid b) ?_ h
  intro s m t h hstep
  have hframe := frame_move hstep
  refine ⟨h.base.move hstep, hframe.launching.trans h.mode, hframe.fgJob.trans h.job,
    hframe.tty.trans h.tty, fun hsteady => ?_⟩
  rw [hasStopped_move hsteady hstep (by rw [h.tty]; simp)]
  exact h.flag hsteady

theorem Attended.moves (h : Attended steady pgid s) (hmoves : Moves steady s t) :
    Attended steady pgid t := by
  have hframe := frame_moves hmoves
  exact ⟨h.base.moves hmoves, hframe.launching.trans h.mode, hframe.fgJob.trans h.job⟩

/-- The flag is set, and everything is exact again. -/
theorem Flagged.home {b : Bool} {tables : JobTables} {out : List Str}
    (h : Flagged steady pgid b s)
    (hgroups : tables.groups =
      Lib.updateFirst (ProcGroup.isFor pgid) (fun g => { g with stopped := b }) s.tables.groups)
    (hkeys : tables.procKeys = s.tables.procKeys) :
    Home steady { s with tables := tables, out := out } := by
  have hbase := h.base.setFlag hgroups hkeys (fun q hq => (Option.some.inj hq).symm) h.tty h.job
    h.flag
  exact ⟨(same_out _ out).base hbase, h.mode, h.job, fun p hp => (by cases hp)⟩

/-- `SIGCONT` continues every process of the group. -/
theorem Home.continued (h : Home steady s) : Flagged steady pgid false (s.killGroup pgid 18) := by
  have htty : s.tty = none := by
    cases htty : s.tty with
    | none => rfl
    | some q => cases h.base.tty q htty
  refine ⟨(h.base.exempt (some pgid)).kill fun _ p _ hmeant => .inl ?_, h.mode, h.job, htty,
    fun _ => ?_⟩
  · have hgroup : s.pgrp p = some pgid := of_decide_eq_true hmeant
    exact ⟨hgroup.symm, by simp⟩
  · refine ⟨fun hfalse => (by cases hfalse), ?_⟩
    rintro ⟨p, -, hgroup, hstop⟩
    change s.pgrp p = some pgid at hgroup
    change (if decide (s.pgrp p = some pgid) = true then signalled 18 (s.kids p) else s.kids p) =
      .stopped at hstop
    rw [if_pos (decide_eq_true hgroup)] at hstop
    cases hlife : s.kids p <;> rw [hlife] at hstop <;> cases hstop

theorem Attended.reap {pid : ℕ} {status : Status} (h : Attended steady pgid s)
    (hgroup : s.pgrp pid = some pgid) (hlife : s.kids pid = .terminated status) :
    Attended steady pgid (s.setLife pid (.reaped status)) :=
  ⟨h.base.reapOwn hlife (.inr (hgroup.trans h.job.symm)), h.mode, h.job⟩

/-- The loop that waits for the job. -/
theorem Await.attended {timer : Bool} {o : Outcome} (hloop : Await steady pgid timer s o u)
    (h : Attended steady pgid s) :
    Attended steady pgid u ∧ (o = .stopped → HasStopped u pgid) := by
  induction hloop with
  | moves hmoves _ ih => exact ih (h.moves hmoves)
  | reaps hgroup hlife _ ih => exact ih (h.reap hgroup hlife)
  | stopped hstop => exact ⟨h, fun _ => hstop⟩
  | finished _ | timedOut _ => exact ⟨h, fun heq => (by cases heq)⟩

theorem Drain.attended (hloop : Drain steady pgid s u) (h : Attended steady pgid s) :
    Attended steady pgid u := by
  induction hloop with
  | moves hmoves _ ih => exact ih (h.moves hmoves)
  | reaps hgroup hlife _ ih => exact ih (h.reap hgroup hlife)
  | ends => exact h

/-- The job is removed. -/
theorem Attended.remove {out : List Str} (h : Attended steady pgid s) :
    Home steady { s with
      tables := Jobs.groupRemove s.tables pgid
      tty := none
      fgJob := none
      out := out } := by
  have hjob : ∀ q, s.fgJob = some q → q = pgid := by
    rw [h.job]
    exact fun q hq => (Option.some.inj hq).symm
  have hbase := h.base.remove (fun q hq => (Option.some.inj hq).symm) hjob
  exact ⟨(same_out _ out).base hbase, h.mode, rfl, fun p hp => (by cases hp)⟩

/-- A job that has stopped is still there. -/
theorem Attended.halted (h : Attended steady pgid s) (hstop : HasStopped s pgid) :
    Flagged steady pgid true { s with tty := none, fgJob := none } := by
  refine ⟨⟨?_, h.base.flags, fun q hq => (by cases hq), h.base.free, h.base.status, h.base.listed,
    h.base.nodup, h.base.grouped, h.base.members⟩, h.mode, rfl, rfl, fun _ => ⟨fun _ => hstop,
    fun _ => rfl⟩⟩
  intro hstale g hg hactive _
  by_cases hpgid : g.pgid = pgid
  · obtain ⟨p, hp, hgroup, hlife⟩ := hstop
    refine ⟨p, hp, hgroup.trans (congrArg some hpgid.symm), ?_⟩
    change unreaped (s.kids p) = true
    rw [hlife]
    rfl
  · refine h.base.alive hstale g hg hactive ?_
    rw [h.job]
    exact fun heq => hpgid (Option.some.inj heq).symm

/-- Signals to the job that the shell waits for. -/
theorem Attended.killGroup (h : Attended steady pgid s) (sig : ℕ) :
    Attended steady pgid (s.killGroup pgid sig) := by
  refine ⟨h.base.kill fun _ p _ hmeant => .inl ?_, h.mode, h.job⟩
  have hgroup : s.pgrp p = some pgid := of_decide_eq_true hmeant
  exact ⟨hgroup.symm, by simp⟩

theorem Conclude.home {cmdName : Str} {o : Outcome} (hend : Conclude steady pgid cmdName o s u)
    (h : Attended steady pgid s) (hstop : o = .stopped → HasStopped s pgid) : Home steady u := by
  cases o with
  | stopped =>
    obtain ⟨t, hmoves, rfl⟩ := hend
    have ht := (h.halted (hstop rfl)).moves hmoves
    exact ht.home (groups_markGroupStopped t.tables pgid) (procKeys_markGroupStopped t.tables pgid)
  | finished =>
    obtain ⟨t, hmoves, rfl⟩ := hend
    have hstart : Attended steady pgid { s with tty := none } :=
      ⟨⟨h.base.alive, h.base.flags, fun q hq => (by cases hq), h.base.free, h.base.status,
        h.base.listed, h.base.nodup, h.base.grouped, h.base.members⟩, h.mode, h.job⟩
    have hhome : Home steady { t with
        tables := Jobs.groupRemove t.tables pgid
        tty := none
        fgJob := none
        out := t.out } := (hstart.moves hmoves).remove
    have htty : t.tty = none := (frame_moves hmoves).tty
    exact hhome.same ⟨rfl, rfl, rfl, rfl, rfl, htty, rfl, rfl, rfl⟩
  | timedOut =>
    obtain ⟨t, hdrain, rfl⟩ := hend
    exact (hdrain.attended ((h.killGroup 15).killGroup 18)).remove

theorem Resumes.home {jobId : ℤ} {cmdName : Str} {mode : ResumeMode}
    (hresume : Resumes steady jobId pgid cmdName mode s u) (h : Home steady s) :
    Home steady u := by
  obtain ⟨s₁, s₂, hmoves₁, hmoves₂, hrest⟩ := hresume
  have h₂ : Flagged steady pgid false s₂ := (kept_home.moves h hmoves₁).continued.moves hmoves₂
  cases mode with
  | bg =>
    change u = _ at hrest
    rw [hrest]
    exact h₂.home rfl rfl
  | fg timeoutSecs =>
    obtain ⟨o, s₄, hloop, hend⟩ := hrest
    have h₃ : Home steady
        { s₂ with
          tables := Jobs.markGroupRunning s₂.tables pgid
          out := s₂.out ++ [cmdName ++ ['\n']] } := h₂.home rfl rfl
    have hbase := h₃.base.exempt (some pgid)
    have hstart : Attended steady pgid
        { s₂ with
          tables := Jobs.markGroupRunning s₂.tables pgid
          out := s₂.out ++ [cmdName ++ ['\n']]
          tty := some pgid
          fgJob := some pgid } := by
      refine ⟨⟨fun hstale g hg hactive _ => ?_, hbase.flags, fun q hq => hq, hbase.free,
        hbase.status, hbase.listed, hbase.nodup, hbase.grouped, hbase.members⟩, h₃.mode, rfl⟩
      refine hbase.alive hstale g hg hactive ?_
      rw [h₃.job]
      simp
    obtain ⟨h₄, hstop⟩ := hloop.attended hstart
    exact hend.home h₄ hstop

theorem resume_home {args : List Str} (hresume : Resume steady args s u) (h : Home steady s) :
    Home steady u := by
  unfold Resume at hresume
  split at hresume
  · rw [hresume]
    exact kept_home.out _ h
  · split at hresume
    · rw [hresume]
      exact kept_home.out _ h
    · exact hresume.home h

/-! ### `ping` and `activities` -/

theorem ping_home {args : List Str} (hping : Ping steady args s u) (h : Home steady s) :
    Home steady u := by
  unfold Ping at hping
  split at hping
  · rw [hping]
    exact kept_home.out _ h
  · split at hping
    · rw [hping]
      exact kept_home.out _ h
    · obtain ⟨t, hmoves, hharmless, rfl⟩ := hping
      have ht : Home steady t := kept_home.moves h hmoves
      split
      · have hbase := ht.base.kill fun hsteady p hp hmeant => .inr (hharmless hsteady p hp hmeant)
        exact kept_home.out _ ⟨hbase, ht.mode, ht.job, fun p hp => (by cases hp)⟩
      · exact kept_home.out _ ht

theorem unreaped_of_isLive {life : Life} (h : Jobs.isLive (procState life) = true) :
    unreaped life = true := by
  cases life with
  | running | stopped => rfl
  | terminated status | absent | reaped _ => cases h

/-- What `activities` leaves active is alive: it looks at every process itself. -/
theorem alive_of_hasLive (h : Home steady s)
    (hlive : Jobs.hasLive (fun p => procState (s.kids p)) s.tables.procs pgid = true) :
    Alive s pgid := by
  obtain ⟨e, he, hentry⟩ := List.any_eq_true.mp hlive
  simp only [Bool.and_eq_true, beq_iff_eq] at hentry
  obtain ⟨⟨rfl, -⟩, hstate⟩ := hentry
  have hgroup := h.base.members e.key (List.mem_map_of_mem he)
  exact ⟨e.pid, (h.base.grouped _ _ hgroup).1, hgroup, unreaped_of_isLive hstate⟩

theorem activities_home (h : Home steady s) : Home steady s.activities := by
  have hgroups := Jobs.activitiesLoop_groups (fun p => procState (s.kids p)) s.tables.groups
    s.tables.procs
  -- An entry that is still active has not been changed, and has a live member.
  have hactive : ∀ g ∈ s.activities.tables.groups, g.active = true → g ∈ s.tables.groups ∧
      Jobs.hasLive (fun p => procState (s.kids p)) s.tables.procs g.pgid = true := by
    intro g hg hactive
    obtain ⟨g', hg', rfl⟩ := List.mem_map.mp (hgroups ▸ hg :
      g ∈ s.tables.groups.map (Jobs.sweep (fun p => procState (s.kids p)) s.tables.procs))
    unfold Jobs.sweep at hactive ⊢
    split at hactive
    · cases hactive
    · rename_i hkeep
      rw [if_neg hkeep]
      rw [hactive, Bool.true_and, Bool.not_eq_true', Bool.not_eq_false] at hkeep
      exact ⟨hg', hkeep⟩
  have hpgids : s.activities.tables.groups.map (·.pgid) = s.tables.groups.map (·.pgid) := by
    change (Jobs.activitiesLoop _ _ _).2.1.map (·.pgid) = _
    rw [hgroups, List.map_map]
    refine List.map_congr_left fun g _ => ?_
    simp only [Function.comp_apply, Jobs.sweep]
    split <;> rfl
  have hkeys : s.activities.tables.procKeys = s.tables.procKeys :=
    Jobs.activitiesLoop_keys _ s.tables.groups s.tables.procs
  refine ⟨⟨?_, ?_, h.base.tty, h.base.free, h.base.status, ?_, ?_, h.base.grouped, ?_⟩, h.mode,
    h.job, fun p hp => (by cases hp)⟩
  · intro _ g hg hg' _
    have halive : Alive s g.pgid := alive_of_hasLive h (hactive g hg hg').2
    exact halive
  · intro hsteady g hg hg' hex
    exact h.base.flags hsteady g (hactive g hg hg').1 hg' hex
  · intro g hg
    have hmem : g.pgid ∈ s.tables.groups.map (·.pgid) := hpgids ▸ List.mem_map_of_mem hg
    obtain ⟨g', hg', heq⟩ := List.mem_map.mp hmem
    rw [← heq]
    exact h.base.listed g' hg'
  · rw [hpgids]
    exact h.base.nodup
  · rw [hkeys]
    exact h.base.members

/-! ### Whole sessions -/

theorem home_step {e : Event} (hstep : ControlStep steady s e t) (h : Home steady s) :
    Home steady t := by
  cases hstep with
  | move hmove => exact kept_home.move h hmove
  | foreground hexec => exact wlp_iff.mp (executePipeline_home h) _ _ hexec
  | background hexec => exact wlp_iff.mp (executeBackground_home h) _ _ hexec
  | resume hresume => exact resume_home hresume h
  | ping hping => exact ping_home hping h
  | activities => exact activities_home h

/-- **The tables are exact at every prompt.** -/
theorem home_run {es : List Event} (hrun : Run (ControlStep steady) {} es s) : Home steady s := by
  refine hrun.invariant (fun _ _ _ h hstep => home_step hstep h) ?_
  exact ⟨base_start steady, rfl, rfl, fun p hp => (by cases hp)⟩

/-! ### Sessions that are computed -/

/-- Steady moves, one after the other. -/
def playMoves (s : State) (ms : List Move) : Option State :=
  ms.foldlM (fun s m => if Steady s m then move s m else none) s

/-- The result of a call that succeeds, and the state after it.  A wait is answered only
if the process has something to report. -/
def replyTo : (c : Call sh) → State → Option (c.Ret × State)
  | .pipe _, s => some (some (0, 0), s)
  | .openFile _, s => some (some 0, s)
  | .wait pid untraced, s =>
    if unreaped (s.kids pid) then
      (waitResult untraced .exited (s.kids pid)).map fun r => (r.1, s.setLife pid r.2)
    else none
  | .exit _, _ => none
  | .book b, s => some ((bookValue s.tables b).getD 0, s.book b)
  | .close _, s | .dup2 _ _, s | .readByte _, s | .feed _ _, s | .drain _, s | .exec _, s =>
    some ((), s)

/-- A launch in which every call succeeds.  The script says what happens before each call;
the processes are numbered from 100 on. -/
def rehearse {α : Type} : List (List Move) → Prog sh α → State → Option (α × State)
  | _, .pure a, s => some (a, s)
  | script, .call c k, s =>
    (playMoves s (script.headD [])).bind fun t =>
      (replyTo c t).bind fun x => rehearse script.tail (k x.1) x.2
  | script, .fork r k, s =>
    (playMoves s (script.headD [])).bind fun t =>
      let pid := 100 + t.pids.length
      if pid ∈ t.pids then none
      else rehearse script.tail (k (.parent pid)) { t with
        pids := t.pids ++ [pid]
        kids := Function.update t.kids pid .running
        pgrp := Function.update t.pgrp pid none
        fgJob := if t.launching = true ∧ r = .stage 0 then some pid else t.fgJob }

/-- An event of a session, with the script of its launch. -/
def perform (s : State) : Event × List (List Move) → Option State
  | (.move m, _) => if Steady s m then move s m else none
  | (.foreground env stages, script) =>
    (rehearse script (executePipeline env stages) { s with launching := true }).map (·.2.settle)
  | (.background env stages, script) =>
    (rehearse script (executeBackground env stages) s).map (·.2)
  | (.resume args, _) =>
    match resumeRequest args with
    | some (jobId, .bg) =>
      match Jobs.groupLookup s.tables jobId 64 with
      | none => some (s.print "resume: no such job\n".toList)
      | some (pgid, _, cmdName) =>
        let t := s.killGroup pgid 18
        some (({ t with tables := Jobs.markGroupRunning t.tables pgid } : State).print
          (runningMessage jobId cmdName))
    | _ => none
  | (.ping _, _) => none
  | (.activities, _) => some s.activities

theorem moves_of_playMoves {ms : List Move} (h : playMoves s ms = some t) : Moves steady s t :=
  ⟨ms, (Lib.run_of_foldlM h).mono fun _ _ _ hstep => ⟨fun _ => hstep.1, hstep.2⟩⟩

theorem controlCall_of_replyTo {c : Call sh} {x : c.Ret} (h : replyTo c s = some (x, t)) :
    controlCall steady c s x t := by
  cases c with
  | wait pid untraced =>
    simp only [replyTo, Option.ite_none_right_eq_some, Option.map_eq_some_iff] at h
    obtain ⟨hlife, ⟨status, life⟩, hresult, rfl, rfl⟩ := h
    refine ⟨fun _ _ => ?_, .inr ⟨.exited, life, hresult, rfl⟩⟩
    -- A process that has not been reaped gets its own status reported.
    cases hpid : s.kids pid with
    | running =>
      rw [hpid] at hresult
      cases hresult
    | stopped =>
      rw [hpid] at hresult
      cases untraced <;> cases hresult
      rfl
    | terminated status' =>
      rw [hpid] at hresult
      cases hresult
      rfl
    | absent | reaped _ =>
      rw [hpid] at hlife
      cases hlife
  | exit n => cases h
  | book b =>
    cases h
    refine ⟨fun w hw => ?_, rfl⟩
    rw [Option.mem_def.mp hw]
    rfl
  | _ =>
    cases h
    rfl

theorem exec_of_rehearse {α : Type} {p : Prog sh α} {a : α} {script : List (List Move)}
    (h : rehearse script p s = some (a, t)) : Exec (controlEffect steady) p s a t := by
  induction p generalizing s script with
  | pure b =>
    cases h
    exact .pure
  | call c k ih =>
    obtain ⟨u, hmoves, h⟩ := Option.bind_eq_some_iff.mp h
    obtain ⟨x, hx, hrest⟩ := Option.bind_eq_some_iff.mp h
    exact .call ⟨u, moves_of_playMoves hmoves, controlCall_of_replyTo hx⟩ (ih _ hrest)
  | fork r k ih =>
    obtain ⟨u, hmoves, h⟩ := Option.bind_eq_some_iff.mp h
    dsimp only at h
    split at h
    · cases h
    · rename_i hnew
      exact .parent ⟨u, moves_of_playMoves hmoves, hnew, rfl⟩ (ih _ h)

theorem step_of_perform {e : Event × List (List Move)} (h : perform s e = some t) :
    ControlStep steady s e.1 t := by
  obtain ⟨e, script⟩ := e
  cases e with
  | move m =>
    simp only [perform, Option.ite_none_right_eq_some] at h
    exact .move ⟨fun _ => h.1, h.2⟩
  | foreground env stages =>
    obtain ⟨⟨z, u⟩, hplay, rfl⟩ := Option.map_eq_some_iff.mp h
    exact .foreground (exec_of_rehearse hplay)
  | background env stages =>
    obtain ⟨⟨z, u⟩, hplay, rfl⟩ := Option.map_eq_some_iff.mp h
    exact .background (exec_of_rehearse hplay)
  | resume args =>
    refine .resume ?_
    simp only [perform] at h
    unfold Resume
    split at h
    · rename_i jobId hrequest
      rw [hrequest]
      cases hlookup : Jobs.groupLookup s.tables jobId 64 with
      | none =>
        simp only [hlookup] at h ⊢
        exact (Option.some.inj h).symm
      | some group =>
        obtain ⟨pgid, stopped, cmdName⟩ := group
        simp only [hlookup] at h ⊢
        exact ⟨s, _, .refl s, .refl _, (Option.some.inj h).symm⟩
    · cases h
  | ping args => cases h
  | activities =>
    cases h
    exact .activities

theorem run_of_perform {es : List (Event × List (List Move))}
    (h : es.foldlM perform s = some t) : Run (ControlStep steady) s (es.map Prod.fst) t := by
  have hrun := (Lib.run_iff_foldlM perform s t es).mpr h
  induction hrun with
  | nil s => exact .nil s
  | cons hstep hrest ih =>
    exact .cons (step_of_perform hstep) (ih ((Lib.run_iff_foldlM _ _ _ _).mp hrest))

/-! ### Active means alive -/

/-- A search that finds no active entry. -/
theorem groupLookup_eq_none {t : JobTables} {jobId : ℤ} {n : ℕ}
    (h : ∀ g ∈ t.groups, g.jobId = jobId → g.active = false) :
    Jobs.groupLookup t jobId n = none := by
  have hfind : t.groups.find? (fun g => g.active && g.jobId == jobId) = none := by
    refine List.find?_eq_none.mpr fun g hg hfound => ?_
    simp only [Bool.and_eq_true, beq_iff_eq] at hfound
    rw [h g hg hfound.2] at hfound
    cases hfound.1
  rw [Jobs.groupLookup, hfind]

/-- **Active means alive.**  In every session, at every prompt at which the tables are not
stale, each active entry stands for a job with a process that has not been reaped; so
`hangup_all_jobs` signals only such jobs, and `resume` and `ping` report a job as missing
if all its processes have been reaped. -/
theorem active_means_alive {es : List Event} {s : State}
    (hrun : Run (ControlStep False) {} es s) (hfresh : s.stale = false) :
    (∀ g ∈ s.tables.groups, g.active = true → Alive s g.pgid) ∧
    (∀ pgid ∈ Jobs.hangupAllJobs s.tables, Alive s pgid) ∧
    ∀ jobId, (∀ g ∈ s.tables.groups, g.jobId = jobId → ¬Alive s g.pgid) →
      (∀ args mode t, resumeRequest args = some (jobId, mode) →
        ControlStep False s (.resume args) t → t = s.print "resume: no such job\n".toList) ∧
      ∀ args sig t, pingRequest args = some (.job jobId, sig) →
        ControlStep False s (.ping args) t →
        t = s.print "ping: no such process found\n".toList := by
  have h : Home False s := home_run hrun
  have halive : ∀ g ∈ s.tables.groups, g.active = true → Alive s g.pgid := by
    intro g hg hactive
    refine h.base.alive hfresh g hg hactive ?_
    rw [h.job]
    simp
  refine ⟨halive, fun pgid hpgid => ?_, fun jobId hdead => ?_⟩
  · obtain ⟨g, hg, rfl⟩ := List.mem_map.mp hpgid
    obtain ⟨hg, hactive⟩ := List.mem_filter.mp hg
    exact halive g hg hactive
  -- No entry with this number is active, so the search finds nothing.
  · have hnone : Jobs.groupLookup s.tables jobId 64 = none := by
      refine groupLookup_eq_none fun g hg hid => ?_
      cases hactive : g.active with
      | false => rfl
      | true => exact absurd (halive g hg hactive) (hdead g hg hid)
    refine ⟨fun args mode t hrequest hstep => ?_, fun args sig t hrequest hstep => ?_⟩
    · cases hstep with
      | resume hresume =>
        simp only [Resume, hrequest, hnone] at hresume
        exact hresume
    · cases hstep with
      | ping hping =>
        simp only [Ping, hrequest, findTarget, hnone, Option.map_none] at hping
        exact hping

/-- A command without redirections. -/
def plainStage (name : Char) : CommandStage := ⟨[[name]], [], []⟩

/-- `resume %1 bg` -/
def resumeFirst : List Str := ["resume".toList, "%1".toList, "bg".toList]

/-- A background job exits, and the handler reaps it. -/
def reapedJob : List (Event × List (List Move)) :=
  [(.background plainEnv [plainStage 'a'], []), (.move (.exits 100 .exited), []),
    (.move (.handler 100), [])]

/-- The job is gone, `activities` is run, and another job is started. -/
def twoJobs : List (Event × List (List Move)) :=
  reapedJob ++ [(.activities, []), (.background plainEnv [plainStage 'b'], [])]

/-- The second job is active and alive, and the first cannot be resumed. -/
theorem active_means_alive_two : ∃ s,
    Run (ControlStep False) {} (twoJobs.map Prod.fst) s ∧
    (∃ g ∈ s.tables.groups, g.active = true ∧ Alive s g.pgid) ∧
    ∀ t, ControlStep False s (.resume resumeFirst) t →
      t = s.print "resume: no such job\n".toList := by
  have hplay : (twoJobs.foldlM perform {}).any (fun s => decide (s.stale = false ∧
      (∃ g ∈ s.tables.groups, g.active = true) ∧
      ∀ g ∈ s.tables.groups, g.jobId = 1 → ¬Alive s g.pgid)) = true := by
    decide +kernel
  obtain ⟨s, hs, hcheck⟩ := (Option.any_eq_true _ _).mp hplay
  obtain ⟨hfresh, ⟨g, hg, hactive⟩, hdead⟩ := of_decide_eq_true hcheck
  have hrun : Run (ControlStep False) {} (twoJobs.map Prod.fst) s := run_of_perform hs
  obtain ⟨halive, -, hmissing⟩ := active_means_alive hrun hfresh
  refine ⟨s, hrun, ⟨g, hg, hactive, halive g hg hactive⟩, fun t hstep => ?_⟩
  exact (hmissing 1 hdead).1 resumeFirst .bg t (by decide +kernel) hstep

/-- **A job that is gone can be resumed.**  The handler has reaped the only process of a
background job; its entry is still active, and `resume` reports it as running. -/
theorem dead_job_resumed : ∃ s t,
    Run (ControlStep False) {} (reapedJob.map Prod.fst) s ∧
    (∃ g ∈ s.tables.groups, g.active = true ∧ g.jobId = 1 ∧ ¬Alive s g.pgid) ∧
    ControlStep False s (.resume resumeFirst) t ∧
    t.out = s.out ++ ["[1] + Running\ta\n".toList] := by
  have hplay : (reapedJob.foldlM perform {}).any (fun s =>
      decide (∃ g ∈ s.tables.groups, g.active = true ∧ g.jobId = 1 ∧ ¬Alive s g.pgid) &&
      (perform s (.resume resumeFirst, [])).any fun t =>
        decide (t.out = s.out ++ ["[1] + Running\ta\n".toList])) = true := by
    decide +kernel
  obtain ⟨s, hs, hcheck⟩ := (Option.any_eq_true _ _).mp hplay
  obtain ⟨hentry, hresume⟩ := Bool.and_eq_true_iff.mp hcheck
  obtain ⟨t, ht, hout⟩ := (Option.any_eq_true _ _).mp hresume
  exact ⟨s, t, run_of_perform hs, of_decide_eq_true hentry, step_of_perform ht,
    of_decide_eq_true hout⟩

end Control
end RuShell
