import RuShell.Lexer
import RuShell.Lib.Posix
import RuShell.Lib.Table

/-!
# The job tables

The tables of `c-shell/src/jobs.c` and the functions that read and change them.
There are three tables: `jobs` for the completion messages, `groups` and `procs`
for job control.  Entries are appended as long as there is room and are never taken
out again; an entry that is not needed any more is marked as not active.

The functions that are called from outside the handler of `SIGCHLD` block that
signal while they work on the tables, so each of them is a single step for the
handler.  Messages are queued by the handler and written by the main program.

## Main definitions

* `JobTables` — the static variables of `jobs.c`.
* `jobAdd`, `jobAddMemberBg`, `groupAdd`, `groupAddMember` — registration.
* `handleChild`, `sigchldHandler` — what the handler does with the children it reaps.
* `markGroupStopped`, `markGroupRunning`, `groupRemove`, `hasStoppedJobs`,
  `hangupAllJobs`, `groupLookup`, `pidIsTracked`, `activitiesPrint` — job control.

## Main results

* `sigchldHandler_frame` — what the handler leaves alone.
* `activitiesLoop_groups`, `activitiesLoop_keys` — which groups `activities_print`
  deactivates, and that it forgets no process.
-/

namespace RuShell
namespace Jobs

open Lib (updateFirst)
open Lib.Posix (Status)

/-! ### The tables -/

/-- `MAX_JOBS` -/
def maxJobs : ℕ := 4096

/-- `MAX_PENDING` -/
def maxPending : ℕ := 256

/-- `MSG_LEN` -/
def msgLen : ℕ := 256

/-- `MAX_PROCS` -/
def maxProcs : ℕ := 8192

/-- `bg_job` -/
structure BgJob where
  jobId : ℤ
  pid : ℕ
  cmdName : Str
  active : Bool
  isLeader : Bool
  deriving DecidableEq, Repr

/-- `proc_group` -/
structure ProcGroup where
  pgid : ℕ
  jobId : ℤ
  cmdName : Str
  active : Bool
  stopped : Bool
  deriving DecidableEq, Repr

/-- `proc_entry` -/
structure ProcEntry where
  pgid : ℕ
  pid : ℕ
  cmdName : Str
  active : Bool
  deriving DecidableEq, Repr

/-- The static variables.  The counters of the tables are their lengths. -/
structure JobTables where
  jobs : List BgJob := []
  nextJobNumber : ℤ := 1
  groups : List ProcGroup := []
  procs : List ProcEntry := []
  pending : List Str := []
  /-- A message has been copied that is longer than its slot: what the program does
  from then on is undefined. -/
  overrun : Bool := false
  deriving DecidableEq, Repr

/-- `strncpy(dst, s, size - 1); dst[size - 1] = '\0';` -/
def strncpy (size : ℕ) (s : Str) : Str := s.take (size - 1)

/-! ### Registration -/

/-- `job_add` -/
def jobAdd (t : JobTables) (pid : ℕ) (cmdName : Str) : ℤ × JobTables :=
  if t.jobs.length < maxJobs then
    (t.nextJobNumber,
      { t with jobs := t.jobs ++ [⟨t.nextJobNumber, pid, strncpy 256 cmdName, true, true⟩] })
  else (-1, t)

/-- `job_add_member_bg` -/
def jobAddMemberBg (t : JobTables) (jobId : ℤ) (pid : ℕ) : JobTables :=
  if t.jobs.length < maxJobs then { t with jobs := t.jobs ++ [⟨jobId, pid, [], true, false⟩] }
  else t

/-- `group_add`: the number is advanced here, not in `job_add`. -/
def groupAdd (t : JobTables) (pgid : ℕ) (cmdName : Str) : JobTables :=
  if t.groups.length < maxJobs then
    { t with
      groups := t.groups ++ [⟨pgid, t.nextJobNumber, strncpy 256 cmdName, true, false⟩]
      nextJobNumber := t.nextJobNumber + 1 }
  else t

/-- `group_add_member` -/
def groupAddMember (t : JobTables) (pgid pid : ℕ) (cmdName : Str) : JobTables :=
  if t.procs.length < maxProcs then
    { t with procs := t.procs ++ [⟨pgid, pid, strncpy 64 cmdName, true⟩] }
  else t

/-! ### The handler -/

/-- The test of `find_job_index_by_pid`. -/
def BgJob.isFor (pid : ℕ) (j : BgJob) : Bool := j.pid == pid && j.active

/-- `find_job_index_by_pid`: the entry at that index. -/
def findJobByPid (jobs : List BgJob) (pid : ℕ) : Option BgJob := jobs.find? (BgJob.isFor pid)

/-- `mark_proc_exited` -/
def markProcExited (procs : List ProcEntry) (pid : ℕ) : List ProcEntry :=
  updateFirst (fun e => e.pid == pid && e.active) (fun e => { e with active := false }) procs

/-- The message for a child that has terminated; `WIFEXITED` and `WIFSIGNALED` are
both false for a child that has not. -/
def completionMessage (cmdName : Str) (pid : ℕ) : Status → Option Str
  | .exited =>
    some (cmdName ++ " with pid ".toList ++ (toString pid).toList ++ " exited normally\n".toList)
  | .signaled =>
    some (cmdName ++ " with pid ".toList ++ (toString pid).toList ++ " exited abnormally\n".toList)
  | .stopped => none

/-- The end of the loop of the handler: a message that does not find a free slot is
dropped, and one that does not fit into its slot is copied past its end. -/
def pushPending (t : JobTables) (msg : Str) : JobTables :=
  if t.pending.length < maxPending then
    if msg.length < msgLen then { t with pending := t.pending ++ [msg] }
    else { t with overrun := true }
  else t

/-- The body of the loop of `sigchld_handler`. -/
def handleChild (t : JobTables) (pid : ℕ) (status : Status) : JobTables :=
  let t := { t with procs := markProcExited t.procs pid }
  match findJobByPid t.jobs pid with
  | none => t
  | some job =>
    let t := { t with
      jobs := updateFirst (BgJob.isFor pid) (fun j => { j with active := false }) t.jobs }
    match completionMessage job.cmdName pid status with
    | none => t
    | some msg => pushPending t msg

/-- `sigchld_handler`, for the children that `waitpid` returns one after the other. -/
def sigchldHandler (t : JobTables) (reaped : List (ℕ × Status)) : JobTables :=
  reaped.foldl (fun t child => handleChild t child.1 child.2) t

/-- The process group and the pid of an entry. -/
def ProcEntry.key (e : ProcEntry) : ℕ × ℕ := (e.pgid, e.pid)

/-- The processes that are registered, and in which groups. -/
def JobTables.procKeys (t : JobTables) : List (ℕ × ℕ) := t.procs.map ProcEntry.key

theorem pushPending_frame (t : JobTables) (msg : Str) :
    (pushPending t msg).groups = t.groups ∧ (pushPending t msg).nextJobNumber = t.nextJobNumber ∧
      (pushPending t msg).procs = t.procs := by
  unfold pushPending
  split
  · split <;> exact ⟨rfl, rfl, rfl⟩
  · exact ⟨rfl, rfl, rfl⟩

theorem handleChild_frame (t : JobTables) (pid : ℕ) (status : Status) :
    (handleChild t pid status).groups = t.groups ∧
      (handleChild t pid status).nextJobNumber = t.nextJobNumber ∧
      (handleChild t pid status).procs = markProcExited t.procs pid := by
  simp only [handleChild]
  split
  · exact ⟨rfl, rfl, rfl⟩
  · split
    · exact ⟨rfl, rfl, rfl⟩
    · exact pushPending_frame _ _

/-- The handler does not look at the groups, and it changes in the entries of processes
only whether they are active. -/
theorem sigchldHandler_frame (t : JobTables) (reaped : List (ℕ × Status)) :
    (sigchldHandler t reaped).groups = t.groups ∧
      (sigchldHandler t reaped).nextJobNumber = t.nextJobNumber ∧
      (sigchldHandler t reaped).procKeys = t.procKeys := by
  induction reaped generalizing t with
  | nil => exact ⟨rfl, rfl, rfl⟩
  | cons c reaped ih =>
    obtain ⟨hgroups, hnext, hkeys⟩ := ih (handleChild t c.1 c.2)
    obtain ⟨hgroups', hnext', hprocs⟩ := handleChild_frame t c.1 c.2
    have hkeys' : (handleChild t c.1 c.2).procKeys = t.procKeys := by
      rw [JobTables.procKeys, hprocs]
      exact Lib.map_updateFirst fun _ _ => rfl
    exact ⟨hgroups.trans hgroups', hnext.trans hnext', hkeys.trans hkeys'⟩

/-! ### Job control -/

/-- The test of the loops that look for a group by its process group id. -/
def ProcGroup.isFor (pgid : ℕ) (g : ProcGroup) : Bool := g.pgid == pgid && g.active

/-- `mark_group_stopped` -/
def markGroupStopped (t : JobTables) (pgid : ℕ) : ℤ × JobTables :=
  match t.groups.find? (ProcGroup.isFor pgid) with
  | none => (-1, t)
  | some g =>
    (g.jobId, { t with
      groups := updateFirst (ProcGroup.isFor pgid) (fun g => { g with stopped := true }) t.groups })

/-- `has_stopped_jobs` -/
def hasStoppedJobs (t : JobTables) : Bool := t.groups.any fun g => g.active && g.stopped

/-- `hangup_all_jobs`: the process groups that are sent `SIGHUP`. -/
def hangupAllJobs (t : JobTables) : List ℕ := (t.groups.filter (·.active)).map (·.pgid)

/-- `group_lookup`: the process group, whether it is stopped, and the name of its
first member that was registered, cut to the caller's buffer. -/
def groupLookup (t : JobTables) (jobId : ℤ) (cmdNameLen : ℕ) : Option (ℕ × Bool × Str) :=
  match t.groups.find? (fun g => g.active && g.jobId == jobId) with
  | none => none
  | some g =>
    let name :=
      match t.procs.find? (fun e => e.pgid == g.pgid) with
      | none => []
      | some e => strncpy cmdNameLen e.cmdName
    some (g.pgid, g.stopped, name)

/-- `mark_group_running` -/
def markGroupRunning (t : JobTables) (pgid : ℕ) : JobTables :=
  { t with
    groups := updateFirst (ProcGroup.isFor pgid) (fun g => { g with stopped := false }) t.groups }

/-- `group_remove` -/
def groupRemove (t : JobTables) (pgid : ℕ) : JobTables :=
  { t with
    groups := updateFirst (ProcGroup.isFor pgid) (fun g => { g with active := false }) t.groups
    procs := t.procs.map fun e => if e.pgid = pgid then { e with active := false } else e }

/-- `pid_is_tracked` -/
def pidIsTracked (t : JobTables) (pid : ℕ) : Bool := t.procs.any fun e => e.pid == pid && e.active

/-! ### `activities` -/

/-- The state letter in `/proc` is that of a process that is still there. -/
def isLive : Option Char → Bool
  | none => false
  | some c => c ≠ 'Z'

/-- `has_live`: a group has a member that is tracked and still there. -/
def hasLive (state : ℕ → Option Char) (procs : List ProcEntry) (pgid : ℕ) : Bool :=
  procs.any fun e => e.pgid == pgid && e.active && isLive (state e.pid)

/-- The lines for the members of a group, and the members that are dropped. -/
def activitiesMember (state : ℕ → Option Char) (g : ProcGroup) (e : ProcEntry) :
    Str × ProcEntry :=
  if e.pgid ≠ g.pgid ∨ e.active = false then ([], e)
  else if isLive (state e.pid) then
    let text := if state e.pid = some 'T' ∨ g.stopped then "Stopped" else "Running"
    ("  ".toList ++ (toString e.pid).toList ++ [' '] ++ e.cmdName ++ [' '] ++ text.toList ++ ['\n'],
      e)
  else ([], { e with active := false })

/-- The body of the loop of `activities_print`. -/
def activitiesGroup (state : ℕ → Option Char) (g : ProcGroup) (procs : List ProcEntry) :
    Str × ProcGroup × List ProcEntry :=
  if g.active = false then ([], g, procs)
  else if hasLive state procs g.pgid then
    let lines := procs.map (activitiesMember state g)
    ('[' :: (toString g.jobId).toList ++ "] pgid ".toList ++ (toString g.pgid).toList ++ ['\n'] ++
      (lines.map Prod.fst).flatten, g, lines.map Prod.snd)
  else ([], { g with active := false }, procs)

/-- The loop of `activities_print`. -/
def activitiesLoop (state : ℕ → Option Char) :
    List ProcGroup → List ProcEntry → Str × List ProcGroup × List ProcEntry
  | [], procs => ([], [], procs)
  | g :: groups, procs =>
    let first := activitiesGroup state g procs
    let rest := activitiesLoop state groups first.2.2
    (first.1 ++ rest.1, first.2.1 :: rest.2.1, rest.2.2)

/-- `activities_print`: what is printed, for what `/proc` says at that time. -/
def activitiesPrint (state : ℕ → Option Char) (t : JobTables) : Str × JobTables :=
  let r := activitiesLoop state t.groups t.procs
  (r.1, { t with groups := r.2.1, procs := r.2.2 })

/-- Dropping members that are not there any more changes no group's liveness. -/
theorem hasLive_activitiesGroup (state : ℕ → Option Char) (g : ProcGroup) (procs : List ProcEntry)
    (pgid : ℕ) :
    hasLive state (activitiesGroup state g procs).2.2 pgid = hasLive state procs pgid := by
  unfold activitiesGroup
  split
  · rfl
  · split
    · simp only [hasLive, List.map_map, List.any_map]
      congr 1
      funext e
      simp only [Function.comp_apply, activitiesMember]
      split
      · rfl
      · split
        · rfl
        · rename_i hdead
          simp [hdead]
    · rfl

/-- What `activities_print` does to a group entry. -/
def sweep (state : ℕ → Option Char) (procs : List ProcEntry) (g : ProcGroup) : ProcGroup :=
  if g.active && !hasLive state procs g.pgid then { g with active := false } else g

theorem activitiesGroup_group (state : ℕ → Option Char) (g : ProcGroup) (procs : List ProcEntry) :
    (activitiesGroup state g procs).2.1 = sweep state procs g := by
  unfold activitiesGroup sweep
  cases hactive : g.active with
  | false => simp
  | true => cases hlive : hasLive state procs g.pgid <;> simp

/-- **`activities_print` deactivates the groups without a live member**, and no other. -/
theorem activitiesLoop_groups (state : ℕ → Option Char) (groups : List ProcGroup)
    (procs : List ProcEntry) :
    (activitiesLoop state groups procs).2.1 = groups.map (sweep state procs) := by
  induction groups generalizing procs with
  | nil => rfl
  | cons g groups ih =>
    have hsweep : sweep state (activitiesGroup state g procs).2.2 = sweep state procs := by
      funext g'
      simp only [sweep, hasLive_activitiesGroup]
    simp only [activitiesLoop, List.map_cons]
    rw [ih, hsweep, activitiesGroup_group]

/-- It forgets no process, though it may mark one as not active. -/
theorem activitiesLoop_keys (state : ℕ → Option Char) (groups : List ProcGroup)
    (procs : List ProcEntry) :
    (activitiesLoop state groups procs).2.2.map ProcEntry.key = procs.map ProcEntry.key := by
  have hmember : ∀ g e, (activitiesMember state g e).2.key = e.key := by
    intro g e
    unfold activitiesMember
    split
    · rfl
    · split <;> rfl
  induction groups generalizing procs with
  | nil => rfl
  | cons g groups ih =>
    simp only [activitiesLoop]
    rw [ih]
    unfold activitiesGroup
    split
    · rfl
    · split
      · simp only [List.map_map]
        exact List.map_congr_left fun e _ => hmember g e
      · rfl

end Jobs
end RuShell
