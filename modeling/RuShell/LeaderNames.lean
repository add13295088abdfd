import RuShell.Grouping
import RuShell.Lib.Run

/-!
# The name of a job

`group_lookup` returns with the group of a job the name of the member that was registered
first under this process group id.  That is meant to be the leader of the job.  In the
table of processes nothing is ever taken out, so it is an older process if the id has been
used before; and a single command with redirections enters its helpers before itself.

## Main definitions

* `At d fs l` — a launch has reached the directory `d` and has forked `fs`.
* `Launched` — what a launch leaves.
* `Job`, `Desk`, `DeskStep` — the tables over a session, and the jobs launched so far.
* `Job.Plain` — no helper comes before the leader, its id is new, and there is room.

## Main results

* `launched_of_exec` — every launch.
* `filed_of_run` — the directory against the jobs, over a session.
* `lookup_names_leader` — **the lookup of a plain job returns the name of its leader**.
* `lookup_names_helper` — a job that is not plain: `a < f` is called `<redirect_in>`, and
  a job with the id of an earlier one has its name.
-/

namespace RuShell
namespace Redirect

open Lib (Run)
open Lib.Posix
open RuShell.Segment
open RuShell.Jobs (JobTables ProcEntry ProcGroup)

/-! ### Launches -/

/-- The launch has reached the directory `d` and has forked `fs`. -/
structure At (d : Directory) (fs : List (ℕ × Role)) (l : LaunchState) : Prop where
  directory : directory l.tables = d
  forked : l.forked = fs

/-- The calls that enter nothing into the directory. -/
def Silent : Call sh → Prop
  | .book (.groupAdd _ _) | .book (.groupAddMember _ _ _) => False
  | _ => True

section Launches

variable {α β : Type} {t : JobTables} {d : Directory} {fs : List (ℕ × Role)} {l l' : LaunchState}
  {p : Prog sh α}

theorem book_of_silent {b : Book} (hb : Silent (.book b)) (d : Directory) : d.book b = d := by
  cases b with
  | groupAdd _ _ | groupAddMember _ _ _ => exact hb.elim
  | _ => rfl

theorem At.handle (h : At d fs l) (reaped : List (ℕ × Status)) : At d fs (l.handle reaped) :=
  ⟨(alike_handle l reaped).directory.trans h.directory, h.forked⟩

theorem At.call {c : Call sh} {x : c.Ret} (h : At d fs l) (hc : Silent c)
    (hcall : launchEffect.call c l x l') : At d fs l' := by
  obtain ⟨reaped, hcall⟩ := hcall
  have h := h.handle reaped
  cases c with
  | book b =>
    obtain ⟨-, rfl⟩ := hcall
    exact ⟨(directory_bookTables _ b).trans ((book_of_silent hc _).trans h.directory), h.forked⟩
  | wait pid untraced =>
    cases untraced <;>
    · obtain rfl := hcall
      exact ⟨h.directory, h.forked⟩
  | _ =>
    obtain rfl := hcall
    exact h

/-- A program of calls that enter nothing. -/
theorem At.calls (h : At d fs l) (hp : p.Calls Silent) :
    wlp launchEffect p (fun _ => At d fs) l :=
  wlp_of_calls (fun hc hcall h => h.call hc hcall) hp h

/-- Go past calls that enter nothing. -/
theorem At.silent {q : α → Prog sh β} {Q : β → LaunchState → Prop}
    (h : At d fs l) (hp : p.Calls Silent)
    (hq : ∀ a l', At d fs l' → wlp launchEffect (q a) Q l') :
    wlp launchEffect (p >>= q) Q l :=
  wlp_seq (h.calls hp) hq

theorem At.note (h : At d fs l) (b : Book) :
    wlp launchEffect (note b) (fun _ => At (d.book b) fs) l := by
  rintro z _ ⟨reaped, -, rfl⟩
  have h := h.handle reaped
  exact ⟨(directory_bookTables _ b).trans (congrArg (·.book b) h.directory), h.forked⟩

/-! ### Calls that enter nothing -/

theorem silent_of_quiet (hp : p.Calls Quiet) : p.Calls Silent := by
  refine hp.mono fun c hc => ?_
  cases c with
  | book b =>
    cases b with
    | groupAdd _ _ | groupAddMember _ _ _ => cases hc
    | _ => trivial
  | _ => trivial

theorem silent_of_minor (hp : p.Calls Minor) : p.Calls Silent :=
  silent_of_quiet (quiet_minor hp)

theorem silent_note {b : Book} (hb : b.quiet = true) : (note b).Calls Silent :=
  silent_of_quiet (quiet_note hb)

theorem silent_setpgid (pid : ℕ) (pgid : Option ℕ) : (setpgid pid pgid).Calls Silent :=
  calls_setpgid trivial fun _ => trivial

theorem silent_waitOpt (pid : Option ℕ) : (waitOpt pid).Calls Silent :=
  calls_waitOpt (fun _ => trivial) pid

theorem silent_closeOpt (fd : Option ℕ) : (closeOpt fd).Calls Silent :=
  calls_closeOpt (fun _ => trivial) fd

theorem silent_undoStage (io : StageIo) : (undoStage io).Calls Silent :=
  calls_undoStage (fun _ => trivial) (fun _ => trivial) io

theorem silent_finishJob (pgid : ℕ) (status : Status) (cmdline : Str) :
    (finishJob pgid status cmdline).Calls Silent :=
  calls_finishJob trivial (fun _ => trivial) trivial

theorem At.addHelpers (h : At d fs l) (pgid : ℕ) (io : StageIo) :
    wlp launchEffect (addHelpers pgid io)
      (fun _ => At (d.addNames pgid (helperNames io)) fs) l := by
  refine wlp_mono (fun _ l' hl' => ?_) (enlists_addHelpers io l)
  exact ⟨h.directory ▸ hl'.directory, hl'.forked.trans h.forked⟩

end Launches

/-! ### Whole launches -/

/-- No helper is registered before the leader: there are none, or it is a pipeline. -/
def LeaderFirst (stages : List CommandStage) (fs : List (ℕ × Role)) : Prop :=
  2 ≤ stages.length ∨ ∀ p ∈ fs, ∃ i, p.2 = Role.stage i

/-- The launch has made no group, or one that the process of the first stage leads. -/
def NewGroup (stages : List CommandStage) (d d' : Directory) (fs : List (ℕ × Role)) : Prop :=
  (d'.groups = d.groups ∧ d'.next = d.next) ∨
    ∃ leader st, d'.groups = d.groups ++ [(d.next, leader)] ∧ d'.next = d.next + 1 ∧
      (leader, Role.stage 0) ∈ fs ∧ stages[0]? = some st ∧
      (LeaderFirst stages fs → d.firstName leader = none → d.names.length < Jobs.maxProcs →
        d'.firstName leader = some (Jobs.strncpy 64 (joinArgs st.args 256)))

/-- What a launch that started with the directory `d` leaves. -/
structure Launched (stages : List CommandStage) (d : Directory) (l : LaunchState) : Prop where
  names : d.names <+: (directory l.tables).names
  nodup : (l.forked.map Prod.fst).Nodup
  group : NewGroup stages d (directory l.tables) l.forked

section Whole

variable {α β : Type} {t : JobTables} {d : Directory} {fs : List (ℕ × Role)} {l l' : LaunchState}
  {setups : List Setup} {io : StageIo} {pid leader : ℕ} {st : CommandStage}
variable {stages : List CommandStage} {hs : List ℕ} {pids : List (Option ℕ)}

/-- Nothing has been entered. -/
theorem At.launched_idle (h : At d fs l) (hnodup : (fs.map Prod.fst).Nodup) :
    Launched stages d l := by
  refine ⟨?_, h.forked ▸ hnodup, .inl ?_⟩
  · rw [h.directory]
  · rw [h.directory]
    exact ⟨rfl, rfl⟩

/-- A group has been entered, and members of it. -/
theorem At.launched_job {names : List Str}
    (h : At ((d.addGroup leader).addNames leader names) fs l) (hnodup : (fs.map Prod.fst).Nodup)
    (hleader : (leader, Role.stage 0) ∈ fs) (hst : stages[0]? = some st)
    (hfirst : LeaderFirst stages fs → ∃ more, names = joinArgs st.args 256 :: more) :
    Launched stages d l := by
  have hle : d.names <+: (Redirect.directory l.tables).names := by
    have hgroup := Directory.addGroup_names d leader
    rw [h.directory, ← hgroup]
    exact Directory.names_le_addNames _ _ _
  refine ⟨hle, h.forked ▸ hnodup, ?_⟩
  rw [h.directory, h.forked]
  by_cases hroom : d.groups.length < Jobs.maxJobs
  · have hadd : d.addGroup leader =
        { d with groups := d.groups ++ [(d.next, leader)], next := d.next + 1 } := if_pos hroom
    refine .inr ⟨leader, st, ?_, ?_, hleader, hst, fun hplain hnew hprocs => ?_⟩
    · rw [Directory.addNames_groups, hadd]
    · rw [Directory.addNames_next, hadd]
    · obtain ⟨more, rfl⟩ := hfirst hplain
      refine Directory.firstName_addNames ?_ ?_ _ _
      · rw [Directory.firstName, Directory.addGroup_names]
        exact hnew
      · rw [Directory.addGroup_names]
        exact hprocs
  · have hadd : d.addGroup leader = d := if_neg hroom
    rw [hadd]
    exact .inl ⟨Directory.addNames_groups _ _ _, Directory.addNames_next _ _ _⟩

theorem Setting.at_ (h : Setting t hs l) : At (Redirect.directory t) l.forked l :=
  ⟨h.directory, rfl⟩

theorem Setting.nodup_forked (h : Setting t hs l) : (l.forked.map Prod.fst).Nodup :=
  h.forked ▸ h.nodup

/-- The program ends with calls that enter nothing. -/
theorem Setting.launched_silent {p : Prog sh ℤ} (h : Setting t hs l) (hp : p.Calls Silent) :
    wlp launchEffect p (fun _ => Launched stages (Redirect.directory t)) l := by
  refine wlp_mono (fun _ l' hl' => ?_) (h.at_.calls hp)
  exact hl'.launched_idle h.nodup_forked

/-! ### One command -/

/-- The command has been forked as `pid`, after the helpers of `io`. -/
structure Staff (pid : ℕ) (io : StageIo) (fs : List (ℕ × Role)) : Prop where
  nodup : (fs.map Prod.fst).Nodup
  leader : (pid, Role.stage 0) ∈ fs
  alone : (∀ p ∈ fs, ∃ i, p.2 = Role.stage i) → helperNames io = []

theorem Setting.fork (h : Setting t io.helpers l)
    (hfork : launchEffect.fork (.stage 0) l (some pid) l') :
    At (Redirect.directory t) (l.forked ++ [(pid, .stage 0)]) l' ∧
      Staff pid io (l.forked ++ [(pid, .stage 0)]) := by
  obtain ⟨hnew, rfl⟩ := hfork
  refine ⟨⟨h.directory, rfl⟩, ?_, List.mem_append_right _ (List.mem_singleton_self _), ?_⟩
  · rw [List.map_append]
    refine List.nodup_append.mpr ⟨h.nodup_forked, List.nodup_singleton pid, fun a ha b hb hab => ?_⟩
    obtain rfl : b = pid := List.mem_singleton.mp hb
    exact hnew (hab ▸ ha)
  · intro hroles
    have hnone : l.forked = [] := by
      refine List.eq_nil_iff_forall_not_mem.mpr fun p hp => ?_
      obtain ⟨i, hi⟩ := hroles p (List.mem_append_left _ hp)
      exact h.roles p hp i hi
    have hempty : io.helpers = [] := by
      rw [← h.forked, hnone]
      rfl
    obtain ⟨hwriter, hreader⟩ := List.append_eq_nil_iff.mp hempty
    rw [helperNames, hwriter, hreader]
    rfl

/-- The entries of a command, its helpers first. -/
theorem At.launched_command
    (h : At (((d.addNames pid (helperNames io)).addGroup pid).addName pid (joinArgs st.args 256))
      fs l) (hstaff : Staff pid io fs) : Launched [st] d l := by
  have hall : ((d.addNames pid (helperNames io)).addGroup pid).addName pid (joinArgs st.args 256) =
      (d.addGroup pid).addNames pid (helperNames io ++ [joinArgs st.args 256]) := by
    rw [Directory.addNames_addGroup, Directory.addNames_append]
    rfl
  rw [hall] at h
  refine h.launched_job hstaff.nodup hstaff.leader rfl fun hplain => ⟨[], ?_⟩
  have halone := hplain.resolve_left (by simp)
  rw [hstaff.alone halone]
  rfl

theorem commandParent_launched (h : At d fs l)
    (hstaff : Staff pid io fs) :
    wlp launchEffect (commandParent pid st io) (fun _ => Launched [st] d) l := by
  refine h.silent (silent_setpgid _ _) fun _ l h => ?_
  refine wlp_seq (h.addHelpers pid io) fun _ l h => ?_
  refine wlp_seq (h.note (.groupAdd pid _)) fun _ l h => ?_
  refine wlp_seq (h.note (.groupAddMember pid pid _)) fun _ l h => ?_
  refine h.silent (silent_note rfl) fun _ l h => ?_
  refine h.silent (silent_closeOpt _) fun _ l h => ?_
  refine h.silent (silent_closeOpt _) fun _ l h => ?_
  refine h.silent (silent_note rfl) fun _ l h => ?_
  refine wlp_seq (h.calls ⟨trivial, fun _ => trivial⟩) fun status l h => ?_
  refine h.silent (silent_note rfl) fun _ l h => ?_
  refine h.silent (silent_waitOpt _) fun _ l h => ?_
  refine h.silent (silent_waitOpt _) fun _ l h => ?_
  refine wlp_mono (fun _ l' hl' => ?_) (h.calls (silent_finishJob pid status _))
  exact hl'.launched_command hstaff

theorem executeWithRedirection_launched (env : Env) (st : CommandStage) (t : JobTables) :
    wlp launchEffect (executeWithRedirection env st) (fun _ => Launched [st] (directory t))
      { tables := t } := by
  have hstart : Setting t [] { tables := t } := setting_start t
  refine (crew_setting t).prepareCommand hstart (fun path io l h => ?_)
    (fun io l h => h.kept (quiet_waitOpt _)) fun hs l h => h.at_.launched_idle h.nodup_forked
  refine h.quiet (quiet_note rfl) fun _ l h => ?_
  refine wlp_bind.mpr ⟨fun pid l' hfork => ?_, fun l' hfork => ?_⟩
  · obtain ⟨hat, hstaff⟩ := h.fork hfork
    exact commandParent_launched hat hstaff
  · obtain rfl : l' = l := hfork
    exact h.launched_silent ((silent_of_minor (minor_perror _)).bind fun _ =>
      (silent_note rfl).bind fun _ => (silent_undoStage io).bind fun _ => trivial)

/-- The background: `execute_with_redirection_bg` has entered the helpers only. -/
theorem executeWithRedirectionBg_hired (env : Env) (st : CommandStage) (sync : Option (ℕ × ℕ))
    (h : Setting t [] l) :
    wlp launchEffect (executeWithRedirectionBg env st sync) (fun child l' =>
      match child with
      | none => ∃ fs, At (directory t) fs l' ∧ (fs.map Prod.fst).Nodup
      | some pid => ∃ io fs, At ((directory t).addNames pid (helperNames io)) fs l' ∧
          Staff pid io fs) l := by
  refine (crew_setting t).prepareCommand h (fun path io l h => ?_)
    (fun io l h => h.kept (quiet_waitOpt _)) fun hs l h => ⟨_, h.at_, h.nodup_forked⟩
  refine h.quiet (quiet_note rfl) fun _ l h => ?_
  refine wlp_bind.mpr ⟨fun pid l' hfork => ?_, fun l' hfork => ?_⟩
  · obtain ⟨hat, hstaff⟩ := h.fork hfork
    refine hat.silent (silent_setpgid _ _) fun _ l hat => ?_
    refine wlp_seq (hat.addHelpers pid io) fun _ l hat => ?_
    refine hat.silent (silent_closeOpt _) fun _ l hat => ?_
    refine hat.silent (silent_closeOpt _) fun _ l hat => ?_
    exact hat.silent (silent_note rfl) fun _ l hat => ⟨io, _, hat, hstaff⟩
  · obtain rfl : l' = l := hfork
    refine h.at_.silent (silent_of_minor (minor_perror _)) fun _ l₁ h₁ => ?_
    refine h₁.silent (silent_undoStage io) fun _ l₂ h₂ => ?_
    exact h₂.silent (silent_note rfl) fun _ l₃ h₃ => ⟨_, h₃, h.nodup_forked⟩

theorem backgroundCommand_launched (env : Env) (st : CommandStage) (t : JobTables) :
    wlp launchEffect (backgroundCommand env st) (fun _ => Launched [st] (directory t))
      { tables := t } := by
  have hstart : Setting t [] { tables := t } := setting_start t
  refine (crew_setting t).calls hstart (minor_pipe _) fun sync l h => ?_
  refine wlp_seq (executeWithRedirectionBg_hired env st sync h) fun child l hchild => ?_
  cases child with
  | none =>
    obtain ⟨fs, hat, hnodup⟩ := hchild
    refine hat.silent (silent_closeOpt _) fun _ l hat => ?_
    exact hat.silent (silent_closeOpt _) fun _ l hat => hat.launched_idle hnodup
  | some pid =>
    obtain ⟨io, fs, hat, hstaff⟩ := hchild
    refine hat.silent (silent_closeOpt _) fun _ l hat => ?_
    refine hat.silent (silent_of_quiet (quiet_book rfl))
      fun jobId l hat => ?_
    refine wlp_seq (hat.note (.groupAdd pid _)) fun _ l hat => ?_
    refine wlp_seq (hat.note (.groupAddMember pid pid _)) fun _ l hat => ?_
    refine hat.silent (silent_of_minor (minor_printf _)) fun _ l hat => ?_
    exact hat.silent (silent_closeOpt _) fun _ l hat => hat.launched_command hstaff

/-! ### Pipelines -/

theorem launched_of_pipeline (env : Env) (z : ℤ) (hstages : 2 ≤ stages.length)
    (hrun : Exec launchEffect (executePipeline env stages) { tables := t } z l ∨
      Exec launchEffect (executeBackground env stages) { tables := t } z l) :
    Launched stages (directory t) l := by
  have hstart := bounded_start t
  obtain ⟨-, hnodup⟩ := hrun.elim (bounded_of_exec · hstart) (bounded_of_exec · hstart)
  rcases exec_registered hstages hrun with
    ⟨-, hdirectory, -⟩ | ⟨leader, -, hleader, -, -, st, more, hst, hdirectory⟩
  · exact At.launched_idle ⟨hdirectory, rfl⟩ hnodup
  · exact At.launched_job ⟨hdirectory, rfl⟩ hnodup hleader hst fun _ => ⟨more, rfl⟩

/-- **Every launch**, in the foreground or in the background. -/
theorem launched_of_exec {env : Env} {background : Bool} {z : ℤ}
    (hexec : Exec launchEffect (launchJob background env stages) { tables := t } z l) :
    Launched stages (directory t) l := by
  match stages with
  | [] =>
    have hidle : wlp launchEffect (launchJob background env []) (fun _ => Launched [] (directory t))
        { tables := t } := by
      cases background <;> exact (setting_start t).at_.launched_idle List.nodup_nil
    exact wlp_iff.mp hidle z l hexec
  | [st] =>
    cases background with
    | false => exact wlp_iff.mp (executeWithRedirection_launched env st t) z l hexec
    | true => exact wlp_iff.mp (backgroundCommand_launched env st t) z l hexec
  | a :: b :: rest =>
    refine launched_of_pipeline env z (by simp) ?_
    cases background with
    | false => exact .inl hexec
    | true => exact .inr hexec

end Whole

/-! ### Sessions -/

/-- A job that has a group. -/
structure Job where
  jobId : ℤ
  pgid : ℕ
  stages : List CommandStage
  /-- The processes that were forked for it, and what for. -/
  forked : List (ℕ × Role)
  /-- The table of processes before it was launched. -/
  procs : List ProcEntry

/-- The process `pid` of the job runs the command line `cmd`. -/
def Job.Runs (j : Job) (pid : ℕ) (cmd : Str) : Prop :=
  ∃ i st, (pid, Role.stage i) ∈ j.forked ∧ j.stages[i]? = some st ∧ cmd = joinArgs st.args 256

/-- No helper was registered before the leader, no process of an earlier job has been
registered under its id, and there was room. -/
def Job.Plain (j : Job) : Prop :=
  LeaderFirst j.stages j.forked ∧ (∀ e ∈ j.procs, e.pgid ≠ j.pgid) ∧
    j.procs.length < Jobs.maxProcs

/-- The tables of the shell, and the jobs that have been launched so far. -/
structure Desk where
  tables : JobTables := {}
  log : List Job := []

/-- What can happen to the tables. -/
inductive DeskEvent
  /-- A command or a pipeline is launched; it can be waited for, and stopped or removed. -/
  | launch (background : Bool) (env : Env) (stages : List CommandStage)
  /-- `sigchld_handler` -/
  | handler (reaped : List (ℕ × Status))
  /-- `group_remove` -/
  | remove (pgid : ℕ)
  /-- `mark_group_stopped` -/
  | stop (pgid : ℕ)
  /-- `mark_group_running` -/
  | resume (pgid : ℕ)
  /-- `activities_print`, with what `/proc` says -/
  | activities (state : ℕ → Option Char)

/-- The job of a launch from the tables `t` that has ended in `l`, if it has a group. -/
def newJobs (t : JobTables) (stages : List CommandStage) (l : LaunchState) : List Job :=
  (l.tables.groups.drop t.groups.length).map fun g => ⟨g.jobId, g.pgid, stages, l.forked, t.procs⟩

/-- One step.  The processes of a launch get any ids, also those of earlier jobs. -/
def DeskStep (s : Desk) (e : DeskEvent) (s' : Desk) : Prop :=
  match e with
  | .launch background env stages =>
    ∃ z l, Exec launchEffect (launchJob background env stages) { tables := s.tables } z l ∧
      s' = ⟨l.tables, s.log ++ newJobs s.tables stages l⟩
  | .handler reaped => s' = { s with tables := Jobs.sigchldHandler s.tables reaped }
  | .remove pgid => s' = { s with tables := Jobs.groupRemove s.tables pgid }
  | .stop pgid => s' = { s with tables := (Jobs.markGroupStopped s.tables pgid).2 }
  | .resume pgid => s' = { s with tables := Jobs.markGroupRunning s.tables pgid }
  | .activities state => s' = { s with tables := (Jobs.activitiesPrint state s.tables).2 }

section Sessions

variable {s s' : Desk} {e : DeskEvent} {d : Directory} {stages : List CommandStage} {t : JobTables}
  {l : LaunchState} {j : Job} {st : CommandStage}

/-- What is known of a job from the directory. -/
structure Known (d : Directory) (j : Job) : Prop where
  nodup : (j.forked.map Prod.fst).Nodup
  leader : ∃ st, (j.pgid, Role.stage 0) ∈ j.forked ∧ j.stages[0]? = some st ∧
    (j.Plain → d.firstName j.pgid = some (Jobs.strncpy 64 (joinArgs st.args 256)))

theorem Known.of_le {d' : Directory} (h : Known d j) (hle : d.names <+: d'.names) :
    Known d' j := by
  obtain ⟨st, hmem, hst, hname⟩ := h.leader
  exact ⟨h.nodup, st, hmem, hst, fun hplain => Directory.firstName_of_le hle (hname hplain)⟩

/-- The groups in the directory are those of the jobs, with increasing numbers. -/
structure Filed (d : Directory) (log : List Job) : Prop where
  groups : d.groups = log.map fun j => (j.jobId, j.pgid)
  increasing : (log.map Job.jobId).Pairwise (· < ·)
  next : ∀ j ∈ log, j.jobId < d.next
  known : ∀ j ∈ log, Known d j

/-- What the launch has logged. -/
theorem map_newJobs (stages : List CommandStage)
    {new : List (ℤ × ℕ)} (h : (directory l.tables).groups = (directory t).groups ++ new) :
    (newJobs t stages l).map (fun j => (j.jobId, j.pgid)) = new := by
  have hlen : (directory t).groups.length = t.groups.length := List.length_map _
  have hmap : (newJobs t stages l).map (fun j => (j.jobId, j.pgid)) =
      (directory l.tables).groups.drop t.groups.length := by
    simp only [newJobs, directory, List.map_map, List.map_drop]
    rfl
  rw [hmap, h, ← hlen, List.drop_left]

theorem mem_newJobs
    (h : j ∈ newJobs t stages l) : j.stages = stages ∧ j.forked = l.forked ∧ j.procs = t.procs := by
  obtain ⟨g, -, rfl⟩ := List.mem_map.mp h
  exact ⟨rfl, rfl, rfl⟩

/-- In the directory a plain job finds its id unused, and room. -/
theorem Job.Plain.firstName_eq_none (h : j.Plain)
    (hprocs : j.procs = t.procs) :
    (directory t).firstName j.pgid = none ∧ (directory t).names.length < Jobs.maxProcs := by
  obtain ⟨-, hnew, hroom⟩ := h
  rw [hprocs] at hnew hroom
  refine ⟨?_, by rwa [directory, List.length_map]⟩
  rw [Directory.firstName, Option.map_eq_none_iff, List.find?_eq_none]
  intro x hx
  obtain ⟨e, he, rfl⟩ := List.mem_map.mp hx
  simpa using hnew e he

/-- A job with the next number. -/
theorem Filed.snoc {d' : Directory} {log : List Job} (h : Filed d log)
    (hgroups : d'.groups = d.groups ++ [(d.next, j.pgid)]) (hnext : d'.next = d.next + 1)
    (hnames : d.names <+: d'.names) (hid : j.jobId = d.next) (hj : Known d' j) :
    Filed d' (log ++ [j]) := by
  refine ⟨?_, ?_, ?_, ?_⟩
  · rw [hgroups, h.groups, List.map_append, ← hid]
    rfl
  · rw [List.map_append]
    refine List.pairwise_append.mpr ⟨h.increasing, List.pairwise_singleton _ _, ?_⟩
    intro a ha b hb
    obtain ⟨i, hi, rfl⟩ := List.mem_map.mp ha
    obtain rfl : b = j.jobId := List.mem_singleton.mp hb
    rw [hid]
    exact h.next i hi
  · intro i hi
    rw [hnext]
    rcases List.mem_append.mp hi with hi | hi
    · exact (h.next i hi).trans (Int.lt_succ _)
    · rw [List.mem_singleton.mp hi, hid]
      exact Int.lt_succ _
  · intro i hi
    rcases List.mem_append.mp hi with hi | hi
    · exact (h.known i hi).of_le hnames
    · exact List.mem_singleton.mp hi ▸ hj

theorem Filed.launch {log : List Job}
    (h : Filed (directory t) log) (hl : Launched stages (directory t) l) :
    Filed (directory l.tables) (log ++ newJobs t stages l) := by
  rcases hl.group with ⟨hgroups, hnext⟩ | ⟨leader, st, hgroups, hnext, hleader, hst, hname⟩
  · have hnone : newJobs t stages l = [] := by
      have hmap := map_newJobs stages (hgroups.trans (List.append_nil _).symm)
      exact List.map_eq_nil_iff.mp hmap
    rw [hnone, List.append_nil]
    refine ⟨hgroups.trans h.groups, h.increasing, ?_, fun j hj => (h.known j hj).of_le hl.names⟩
    rw [hnext]
    exact h.next
  · have hmap := map_newJobs stages hgroups
    obtain ⟨j, hj⟩ : ∃ j, newJobs t stages l = [j] := by
      refine List.length_eq_one_iff.mp ?_
      rw [← List.length_map (fun j : Job => (j.jobId, j.pgid)), hmap]
      rfl
    have hmem : j ∈ newJobs t stages l := hj ▸ List.mem_singleton_self j
    obtain ⟨hstages, hforked, hprocs⟩ := mem_newJobs hmem
    rw [hj] at hmap ⊢
    obtain ⟨hid, rfl⟩ : j.jobId = (directory t).next ∧ j.pgid = leader := by simpa using hmap
    refine h.snoc hgroups hnext hl.names hid
      ⟨hforked ▸ hl.nodup, st, hforked ▸ hleader, hstages ▸ hst, ?_⟩
    intro hplain
    obtain ⟨hnew, hroom⟩ := hplain.firstName_eq_none hprocs
    have hfirst := hplain.1
    rw [hstages, hforked] at hfirst
    exact hname hfirst hnew hroom

/-- The other steps leave the directory as it is. -/
theorem Filed.step (h : Filed (directory s.tables) s.log) (hstep : DeskStep s e s') :
    Filed (directory s'.tables) s'.log := by
  cases e with
  | launch background env stages =>
    obtain ⟨z, l, hexec, rfl⟩ := hstep
    exact h.launch (launched_of_exec hexec)
  | handler reaped =>
    obtain rfl := hstep
    exact (directory_sigchldHandler s.tables reaped).symm ▸ h
  | remove pgid =>
    obtain rfl := hstep
    exact (directory_groupRemove s.tables pgid).symm ▸ h
  | stop pgid =>
    obtain rfl := hstep
    exact (directory_markGroupStopped s.tables pgid).symm ▸ h
  | resume pgid =>
    obtain rfl := hstep
    exact (directory_markGroupRunning s.tables pgid).symm ▸ h
  | activities state =>
    obtain rfl := hstep
    exact (directory_activitiesPrint s.tables state).symm ▸ h

theorem filed_of_run {es : List DeskEvent} (hrun : Run DeskStep {} es s) :
    Filed (directory s.tables) s.log := by
  refine Run.invariant (I := fun s => Filed (directory s.tables) s.log)
    (fun _ _ _ hs hstep => hs.step hstep) hrun ?_
  refine ⟨rfl, List.Pairwise.nil, fun j hj => ?_, fun j hj => ?_⟩ <;> cases hj

/-- One process runs one command. -/
theorem Known.runs (h : Known d j) {cmd : Str}
    (hmem : (j.pgid, Role.stage 0) ∈ j.forked) (hst : j.stages[0]? = some st)
    (hruns : j.Runs j.pgid cmd) : cmd = joinArgs st.args 256 := by
  obtain ⟨i, st', hmem', hst', rfl⟩ := hruns
  have hrole := List.inj_on_of_nodup_map h.nodup hmem hmem' rfl
  obtain rfl : 0 = i := by simpa using hrole
  rw [hst] at hst'
  rw [Option.some.inj hst']

/-- **The lookup of a job returns the name of its leader**, in every session, if the job is
plain: it is a pipeline or has no helpers, its process group id has not been used before,
and there was room in the table of processes.  Every job that is found is one that was
launched, under its number and no other, and one of its processes has the id of its
group. -/
theorem lookup_names_leader {es : List DeskEvent} {jobId : ℤ} {n pgid : ℕ} {stopped : Bool}
    {name : Str} (hrun : Run DeskStep {} es s)
    (hlookup : Jobs.groupLookup s.tables jobId n = some (pgid, stopped, name)) :
    ∃ j ∈ s.log, (∀ i ∈ s.log, i.jobId = jobId ↔ i = j) ∧ j.pgid = pgid ∧
      (∃ cmd, j.Runs pgid cmd) ∧
      (j.Plain → ∀ cmd, j.Runs pgid cmd → name = Jobs.strncpy n (Jobs.strncpy 64 cmd)) := by
  have hfiled := filed_of_run hrun
  obtain ⟨hgroup, hname⟩ := groupLookup_eq_some s.tables hlookup
  rw [hfiled.groups] at hgroup
  obtain ⟨j, hj, hpair⟩ := List.mem_map.mp hgroup
  obtain ⟨rfl, rfl⟩ : j.jobId = jobId ∧ j.pgid = pgid := by simpa using hpair
  have hknown := hfiled.known j hj
  obtain ⟨st, hmem, hst, hfirst⟩ := hknown.leader
  refine ⟨j, hj, fun i hi => ⟨fun hid => ?_, fun hij => by rw [hij]⟩, rfl,
    ⟨_, 0, st, hmem, hst, rfl⟩, fun hplain cmd hcmd => ?_⟩
  · have hnodup : (s.log.map Job.jobId).Nodup := hfiled.increasing.imp fun hlt => hlt.ne
    exact List.inj_on_of_nodup_map hnodup hi hj hid
  · rw [hknown.runs hmem hst hcmd, hname, hfirst hplain]
    rfl

/-! ### Sessions that can be played -/

/-- A launch in which every call succeeds. -/
def playLaunch (status : ℕ → Status) (background : Bool) (stages : List CommandStage)
    (s : Desk) : Option Desk :=
  (play status (launchJob background plainEnv stages) { tables := s.tables }).map fun x =>
    ⟨x.2.tables, s.log ++ newJobs s.tables stages x.2⟩

theorem step_of_playLaunch {status : ℕ → Status} {background : Bool}
    (h : playLaunch status background stages s = some s') :
    DeskStep s (.launch background plainEnv stages) s' := by
  obtain ⟨⟨z, l⟩, hplay, rfl⟩ := Option.map_eq_some_iff.mp h
  exact ⟨z, l, exec_of_play hplay, rfl⟩

/-- The lookup of job `jobId` returns `name`, and process `pgid` of it runs `st`. -/
def Desk.shows (s : Desk) (jobId : ℤ) (pgid : ℕ) (stopped : Bool) (name : Str)
    (st : CommandStage) : Bool :=
  decide (Jobs.groupLookup s.tables jobId 256 = some (pgid, stopped, name)) &&
    s.log.any fun j => decide (j.jobId = jobId ∧ (pgid, Role.stage 0) ∈ j.forked ∧
      j.stages[0]? = some st)

theorem exists_of_shows {jobId : ℤ} {pgid : ℕ} {stopped : Bool} {name : Str}
    (h : s.shows jobId pgid stopped name st = true) :
    Jobs.groupLookup s.tables jobId 256 = some (pgid, stopped, name) ∧
      ∃ j ∈ s.log, j.jobId = jobId ∧ j.Runs pgid (joinArgs st.args 256) := by
  obtain ⟨hlookup, hlog⟩ := Bool.and_eq_true_iff.mp h
  obtain ⟨j, hj, htest⟩ := List.any_eq_true.mp hlog
  obtain ⟨hid, hmem, hst⟩ := of_decide_eq_true htest
  exact ⟨of_decide_eq_true hlookup, j, hj, hid, 0, st, hmem, hst, rfl⟩

theorem lookup_names_leader_pipeline : ∃ s name,
    Run DeskStep {} [.launch true plainEnv aPipeB] s ∧
    Jobs.groupLookup s.tables 1 256 = some (100, false, name) ∧
    ∃ j ∈ s.log, ∀ cmd, j.Runs 100 cmd → name = Jobs.strncpy 256 (Jobs.strncpy 64 cmd) := by
  have h : (playLaunch (fun _ => .exited) true aPipeB {}).any
      (fun s => s.shows 1 100 false ['a'] ⟨[['a']], [], []⟩) = true := by
    decide +kernel
  obtain ⟨s, hplay, hshows⟩ := (Option.any_eq_true _ _).mp h
  have hrun : Run DeskStep {} [.launch true plainEnv aPipeB] s :=
    .single (step_of_playLaunch hplay)
  obtain ⟨hlookup, -⟩ := exists_of_shows hshows
  obtain ⟨j, hj, -, -, -, hname⟩ := lookup_names_leader hrun hlookup
  refine ⟨s, _, hrun, hlookup, j, hj, hname ?_⟩
  obtain ⟨⟨z, l⟩, -, rfl⟩ := Option.map_eq_some_iff.mp hplay
  obtain ⟨hstages, -, hprocs⟩ := mem_newJobs hj
  refine ⟨.inl (by rw [hstages]; decide), fun e he => ?_, by rw [hprocs]; decide⟩
  rw [hprocs] at he
  cases he

/-- `a < f` -/
def aFromFile : CommandStage := ⟨[['a']], [['f']], []⟩

/-- `a` -/
def plainA : CommandStage := ⟨[['a']], [], []⟩

/-- `b` -/
def plainB : CommandStage := ⟨[['b']], [], []⟩

/-- **Two jobs with wrong names.**  `a < f &` is called `<redirect_in>`; and `b`, stopped in
the foreground, is called `a` if it has the process id that an `a` had which has run to its
end. -/
theorem lookup_names_helper :
    (∃ s, Run DeskStep {} [.launch true plainEnv [aFromFile]] s ∧
      Jobs.groupLookup s.tables 1 256 = some (101, false, "<redirect_in>".toList) ∧
      ∃ j ∈ s.log, j.jobId = 1 ∧ j.Runs 101 ['a']) ∧
    ∃ s, Run DeskStep {} [.launch false plainEnv [plainA], .launch false plainEnv [plainB]] s ∧
      Jobs.groupLookup s.tables 2 256 = some (100, true, ['a']) ∧
      ∃ j ∈ s.log, j.jobId = 2 ∧ j.Runs 100 ['b'] := by
  constructor
  · have h : (playLaunch (fun _ => .exited) true [aFromFile] {}).any
        (fun s => s.shows 1 101 false "<redirect_in>".toList aFromFile) = true := by
      decide +kernel
    obtain ⟨s, hplay, hshows⟩ := (Option.any_eq_true _ _).mp h
    exact ⟨s, .single (step_of_playLaunch hplay), exists_of_shows hshows⟩
  · have h : ((playLaunch (fun _ => .exited) false [plainA] {}).bind fun s =>
        playLaunch (fun _ => .stopped) false [plainB] s).any
        (fun s => s.shows 2 100 true ['a'] plainB) = true := by
      decide +kernel
    obtain ⟨s', hplays, hshows⟩ := (Option.any_eq_true _ _).mp h
    obtain ⟨s, hfirst, hsecond⟩ := Option.bind_eq_some_iff.mp hplays
    refine ⟨s', .cons (step_of_playLaunch hfirst) (.single (step_of_playLaunch hsecond)), ?_⟩
    exact exists_of_shows hshows

end Sessions

end Redirect
end RuShell
