import RuShell.Jobs
import RuShell.Lib.Run

/-!
# Job numbers

`job_add` reads the next number and `group_add` advances it.  A foreground launch
calls only the second, a background launch both, and each of them does nothing if
its table is full.  Here the launches of a session are compared with the table of
groups.

## Main definitions

* `Launch` — a launch, the numbers it was given, and whether the job is still alive.
* `Session`, `SessionEvent`, `sessionStep` — the tables over a session.
* `Orderly` — there is room for a launch, and a job that is alive is not removed.

## Main results

* `job_numbers` — **in orderly sessions the numbers increase, the number printed is
  that of the group, and it finds the group as long as the job is alive**.
* `numbers_repeat` — when the table of groups is full, two jobs get the same number
  and it finds neither.
-/

namespace RuShell
namespace Jobs

open Lib.Posix (Status)

/-! ### Sessions -/

/-- A job that has been launched. -/
structure Launch where
  pgid : ℕ
  /-- What `job_add` returned, for a background launch. -/
  printed : Option ℤ
  /-- The number of the group entry that was created. -/
  assigned : Option ℤ
  /-- Some member has not terminated. -/
  alive : Bool
  deriving DecidableEq, Repr

/-- The tables, and the launches so far. -/
structure Session where
  tables : JobTables := {}
  log : List Launch := []
  deriving DecidableEq, Repr

/-- What can happen. -/
inductive SessionEvent
  | launch (background : Bool) (pgid : ℕ) (cmdName : Str)
  /-- `job_add_member_bg` -/
  | memberBg (jobId : ℤ) (pid : ℕ)
  /-- `group_add_member` -/
  | member (pgid pid : ℕ) (cmdName : Str)
  /-- The last member of the job terminates. -/
  | finish (pgid : ℕ)
  /-- `sigchld_handler` -/
  | handler (reaped : List (ℕ × Status))
  /-- `group_remove` -/
  | remove (pgid : ℕ)
  /-- `mark_group_stopped` -/
  | stop (pgid : ℕ)
  /-- `mark_group_running` -/
  | resume (pgid : ℕ)
  /-- `activities_print`, with what `/proc` says -/
  | activities (state : ℕ → Option Char)

/-- The number of the entry that `group_add` has appended, if it has. -/
def newGroup (before after : JobTables) : Option ℤ :=
  if before.groups.length < after.groups.length then after.groups.getLast?.map (·.jobId) else none

/-- A launch: `job_add` in the background, then `group_add`. -/
def launch (s : Session) (background : Bool) (pgid : ℕ) (cmdName : Str) : Session :=
  let added := if background then jobAdd s.tables pgid cmdName else (0, s.tables)
  let tables := groupAdd added.2 pgid cmdName
  { tables := tables
    log := s.log ++
      [⟨pgid, if background then some added.1 else none, newGroup added.2 tables, true⟩] }

/-- The job with this process group id, if it is alive. -/
def Launch.isFor (pgid : ℕ) (l : Launch) : Bool := l.alive && l.pgid == pgid

/-- The step function; a process group id is not given out while it is in use. -/
def sessionStep (s : Session) : SessionEvent → Option Session
  | .launch background pgid cmdName =>
    if s.log.any (Launch.isFor pgid) then none else some (launch s background pgid cmdName)
  | .memberBg jobId pid => some { s with tables := jobAddMemberBg s.tables jobId pid }
  | .member pgid pid cmdName => some { s with tables := groupAddMember s.tables pgid pid cmdName }
  | .finish pgid =>
    some { s with log := s.log.map fun l => if l.pgid = pgid then { l with alive := false } else l }
  | .handler reaped => some { s with tables := sigchldHandler s.tables reaped }
  | .remove pgid => some { s with tables := groupRemove s.tables pgid }
  | .stop pgid => some { s with tables := (markGroupStopped s.tables pgid).2 }
  | .resume pgid => some { s with tables := markGroupRunning s.tables pgid }
  | .activities state => some { s with tables := (activitiesPrint state s.tables).2 }

/-- A launch finds room in the tables it uses, and a job that is alive is not removed:
`group_remove` is not called for it, and when `activities` looks for its members it
finds one that is there. -/
def Orderly (s : Session) : SessionEvent → Prop
  | .launch background _ _ =>
    s.tables.groups.length < maxJobs ∧ (background = true → s.tables.jobs.length < maxJobs)
  | .remove pgid => ∀ l ∈ s.log, l.alive = true → l.pgid ≠ pgid
  | .activities state =>
    ∀ l ∈ s.log, l.alive = true → hasLive state s.tables.procs l.pgid = true
  | _ => True

/-- A session whose steps are all orderly. -/
def OrderlyRun : Session → List SessionEvent → Session → Prop :=
  Lib.Run fun s e t => Orderly s e ∧ sessionStep s e = some t

/-! ### Groups and launches -/

/-- A group entry is that of a launch. -/
structure EntryOf (g : ProcGroup) (l : Launch) : Prop where
  pgid : g.pgid = l.pgid
  assigned : l.assigned = some g.jobId
  printed : ∀ z ∈ l.printed, z = g.jobId
  active : l.alive = true → g.active = true

/-- The table of groups is the list of launches, with increasing numbers. -/
structure Numbered (s : Session) : Prop where
  entries : List.Forall₂ EntryOf s.tables.groups s.log
  increasing : (s.tables.groups.map (·.jobId)).Pairwise (· < ·)
  next : ∀ z ∈ s.tables.groups.map (·.jobId), z < s.tables.nextJobNumber

variable {s : Session}

/-- The numbers depend on the groups and the counter only. -/
theorem Numbered.of_tables {t : Session} (h : Numbered s)
    (hgroups : t.tables.groups = s.tables.groups)
    (hnext : t.tables.nextJobNumber = s.tables.nextJobNumber) (hlog : t.log = s.log) :
    Numbered t := by
  refine ⟨?_, ?_, ?_⟩
  · rw [hgroups, hlog]
    exact h.entries
  · rw [hgroups]
    exact h.increasing
  · rw [hgroups, hnext]
    exact h.next

/-- Changing a group entry other than its number. -/
theorem Numbered.update (h : Numbered s) {tables : JobTables} {p : ProcGroup → Bool}
    {f : ProcGroup → ProcGroup} (hgroups : tables.groups = Lib.updateFirst p f s.tables.groups)
    (hnext : tables.nextJobNumber = s.tables.nextJobNumber) (hid : ∀ g, (f g).jobId = g.jobId)
    (hf : ∀ g l, l ∈ s.log → p g = true → EntryOf g l → EntryOf (f g) l) :
    Numbered { s with tables := tables } := by
  have hids : tables.groups.map (·.jobId) = s.tables.groups.map (·.jobId) := by
    rw [hgroups]
    exact Lib.map_updateFirst fun g _ => hid g
  refine ⟨?_, ?_, ?_⟩
  · change List.Forall₂ EntryOf tables.groups s.log
    rw [hgroups]
    exact Lib.forall₂_updateFirst h.entries hf
  · change (tables.groups.map (·.jobId)).Pairwise (· < ·)
    rw [hids]
    exact h.increasing
  · change ∀ z ∈ tables.groups.map (·.jobId), z < tables.nextJobNumber
    rw [hids, hnext]
    exact h.next

/-- A launch with room in the tables. -/
theorem Numbered.launch (h : Numbered s) {background : Bool} {pgid : ℕ} {cmdName : Str}
    (hgroups : s.tables.groups.length < maxJobs)
    (hjobs : background = true → s.tables.jobs.length < maxJobs) :
    Numbered (launch s background pgid cmdName) := by
  have hentry : ∀ (tables : JobTables) (printed : Option ℤ), tables.groups = s.tables.groups →
      tables.nextJobNumber = s.tables.nextJobNumber →
      (∀ z ∈ printed, z = s.tables.nextJobNumber) →
      Numbered
        { tables := groupAdd tables pgid cmdName
          log := s.log ++
            [⟨pgid, printed, newGroup tables (groupAdd tables pgid cmdName), true⟩] } := by
    intro tables printed hsame hnext hprinted
    have hroom : tables.groups.length < maxJobs := by rwa [hsame]
    rw [groupAdd, if_pos hroom, hsame, hnext]
    refine ⟨?_, ?_, ?_⟩
    · refine List.rel_append h.entries (.cons ⟨rfl, ?_, hprinted, fun _ => rfl⟩ .nil)
      simp [newGroup, hsame]
    · simp only [List.map_append, List.map_cons, List.map_nil]
      refine List.pairwise_append.mpr ⟨h.increasing, List.pairwise_singleton _ _, ?_⟩
      intro a ha b hb
      rw [List.mem_singleton.mp hb]
      exact h.next a ha
    · intro z hz
      simp only [List.map_append, List.map_cons, List.map_nil, List.mem_append,
        List.mem_singleton] at hz
      rcases hz with hz | hz
      · have := h.next z hz
        dsimp only
        omega
      · dsimp only
        omega
  cases background with
  | false => exact hentry s.tables none rfl rfl fun _ hz => (by cases hz)
  | true =>
    have hadd : jobAdd s.tables pgid cmdName = (s.tables.nextJobNumber, { s.tables with
        jobs := s.tables.jobs ++
          [⟨s.tables.nextJobNumber, pgid, strncpy 256 cmdName, true, true⟩] }) := by
      rw [jobAdd, if_pos (hjobs rfl)]
    simp only [Jobs.launch, if_true, hadd]
    refine hentry _ _ rfl rfl fun z hz => ?_
    exact (Option.some.inj hz).symm

theorem sweep_jobId (state : ℕ → Option Char) (procs : List ProcEntry) (g : ProcGroup) :
    (sweep state procs g).jobId = g.jobId := by
  unfold sweep
  split <;> rfl

/-- `activities` leaves the entries of the jobs that are alive. -/
theorem EntryOf.sweep {g : ProcGroup} {l : Launch} {state : ℕ → Option Char}
    {procs : List ProcEntry} (h : EntryOf g l)
    (hlive : l.alive = true → hasLive state procs l.pgid = true) :
    EntryOf (sweep state procs g) l := by
  unfold Jobs.sweep
  split
  · rename_i hdead
    refine ⟨h.pgid, h.assigned, h.printed, fun halive => ?_⟩
    rw [h.pgid, hlive halive] at hdead
    simp at hdead
  · exact h

theorem Numbered.activities (h : Numbered s) {state : ℕ → Option Char}
    (hlive : ∀ l ∈ s.log, l.alive = true → hasLive state s.tables.procs l.pgid = true) :
    Numbered { s with tables := (activitiesPrint state s.tables).2 } := by
  have hgroups := activitiesLoop_groups state s.tables.groups s.tables.procs
  have hids : (s.tables.groups.map (sweep state s.tables.procs)).map (·.jobId) =
      s.tables.groups.map (·.jobId) := by
    rw [List.map_map]
    exact List.map_congr_left fun g _ => sweep_jobId _ _ g
  refine ⟨?_, ?_, ?_⟩
  · change List.Forall₂ EntryOf (activitiesLoop state s.tables.groups s.tables.procs).2.1 s.log
    rw [hgroups, List.forall₂_map_left_iff]
    have hmem : List.Forall₂ (fun g l => EntryOf g l ∧ l ∈ s.log) s.tables.groups s.log := by
      refine List.forall₂_iff_get.mpr ⟨h.entries.length_eq, fun i hi hj => ?_⟩
      exact ⟨h.entries.get hi hj, List.get_mem _ _⟩
    exact hmem.imp fun g l hgl => hgl.1.sweep (hlive l hgl.2)
  · change ((activitiesLoop state s.tables.groups s.tables.procs).2.1.map (·.jobId)).Pairwise _
    rw [hgroups, hids]
    exact h.increasing
  · change ∀ z ∈ (activitiesLoop state s.tables.groups s.tables.procs).2.1.map (·.jobId), _
    rw [hgroups, hids]
    exact h.next

/-- A job whose last member terminates. -/
theorem Numbered.finish (h : Numbered s) (pgid : ℕ) :
    Numbered { s with
      log := s.log.map fun l => if l.pgid = pgid then { l with alive := false } else l } := by
  refine ⟨?_, h.increasing, h.next⟩
  change List.Forall₂ EntryOf s.tables.groups (s.log.map _)
  rw [List.forall₂_map_right_iff]
  refine h.entries.imp fun g l hgl => ?_
  split
  · exact ⟨hgl.pgid, hgl.assigned, hgl.printed, fun halive => (by cases halive)⟩
  · exact hgl

/-- Every orderly step keeps the numbers in order. -/
theorem Numbered.step {t : Session} {e : SessionEvent} (h : Numbered s) (horderly : Orderly s e)
    (hstep : sessionStep s e = some t) : Numbered t := by
  cases e with
  | launch background pgid cmdName =>
    simp only [sessionStep] at hstep
    split at hstep
    · cases hstep
    · cases hstep
      exact h.launch horderly.1 horderly.2
  | memberBg jobId pid =>
    cases hstep
    unfold jobAddMemberBg
    split
    · exact h.of_tables rfl rfl rfl
    · exact h
  | member pgid pid cmdName =>
    cases hstep
    unfold groupAddMember
    split
    · exact h.of_tables rfl rfl rfl
    · exact h
  | finish pgid =>
    cases hstep
    exact h.finish pgid
  | handler reaped =>
    cases hstep
    obtain ⟨hgroups, hnext, -⟩ := sigchldHandler_frame s.tables reaped
    exact h.of_tables hgroups hnext rfl
  | remove pgid =>
    cases hstep
    refine h.update rfl rfl (fun _ => rfl) fun g l hl hg hgl => ?_
    refine ⟨hgl.pgid, hgl.assigned, hgl.printed, fun halive => ?_⟩
    -- The entry that is found has the id of the job, and that job is not alive.
    have hpgid : g.pgid = pgid := by
      simp only [ProcGroup.isFor, Bool.and_eq_true, beq_iff_eq] at hg
      exact hg.1
    exact absurd (hgl.pgid.symm.trans hpgid) (horderly l hl halive)
  | stop pgid =>
    cases hstep
    unfold markGroupStopped
    split
    · exact h
    · refine h.update rfl rfl (fun _ => rfl) fun g l _ _ hgl => ?_
      exact ⟨hgl.pgid, hgl.assigned, hgl.printed, hgl.active⟩
  | resume pgid =>
    cases hstep
    refine h.update rfl rfl (fun _ => rfl) fun g l _ _ hgl => ?_
    exact ⟨hgl.pgid, hgl.assigned, hgl.printed, hgl.active⟩
  | activities state =>
    cases hstep
    exact h.activities horderly

theorem numbered_start : Numbered {} :=
  ⟨.nil, List.Pairwise.nil, fun _ hz => (by cases hz)⟩

/-- The number of a job that is alive finds its group. -/
theorem Numbered.lookup (h : Numbered s) {l : Launch} {z : ℤ} (hl : l ∈ s.log)
    (halive : l.alive = true) (hz : l.assigned = some z) (n : ℕ) :
    ∃ stopped name, groupLookup s.tables z n = some (l.pgid, stopped, name) := by
  obtain ⟨i, hi, rfl⟩ := List.mem_iff_getElem.mp hl
  have hlen := h.entries.length_eq
  have hentry : EntryOf s.tables.groups[i] s.log[i] := h.entries.get (by omega) hi
  have hid : s.tables.groups[i].jobId = z := Option.some.inj (hentry.assigned.symm.trans hz)
  have hnodup : (s.tables.groups.map (·.jobId)).Nodup := h.increasing.imp fun hlt => hlt.ne
  have hfind : s.tables.groups.find? (fun g => g.active && g.jobId == z) =
      some s.tables.groups[i] := by
    refine Lib.find?_of_nodup_map hnodup (List.getElem_mem _) ?_ fun g _ hg => ?_
    · simp [hentry.active halive, hid]
    · simp only [Bool.and_eq_true, beq_iff_eq] at hg
      exact hg.2.trans hid.symm
  simp only [groupLookup, hfind, hentry.pgid]
  exact ⟨_, _, rfl⟩

/-- **Job numbers identify jobs**: every launch is given a number, the numbers of
successive launches increase, what `job_add` returns is the number of the group, and
as long as a job is alive its number finds its process group. -/
theorem job_numbers {es : List SessionEvent} (hrun : OrderlyRun {} es s) :
    (∃ ids : List ℤ, s.log.map (·.assigned) = ids.map some ∧ ids.Pairwise (· < ·)) ∧
      (∀ l ∈ s.log, ∀ z ∈ l.printed, l.assigned = some z) ∧
      ∀ l ∈ s.log, l.alive = true → ∀ z ∈ l.assigned, ∀ n, ∃ stopped name,
        groupLookup s.tables z n = some (l.pgid, stopped, name) := by
  have h : Numbered s :=
    Lib.Run.invariant (fun _ _ _ hs hstep => hs.step hstep.1 hstep.2) hrun numbered_start
  refine ⟨⟨s.tables.groups.map (·.jobId), ?_, h.increasing⟩, ?_, ?_⟩
  · rw [List.map_map]
    have hmaps : List.Forall₂ (fun g l => l.assigned = some g.jobId) s.tables.groups s.log :=
      h.entries.imp fun g l hgl => hgl.assigned
    refine List.forall₂_eq_eq_eq ▸ ?_
    rw [List.forall₂_map_left_iff, List.forall₂_map_right_iff]
    exact hmaps.flip
  · intro l hl z hz
    obtain ⟨i, hi, rfl⟩ := List.mem_iff_getElem.mp hl
    have hlen := h.entries.length_eq
    have hentry : EntryOf s.tables.groups[i] s.log[i] := h.entries.get (by omega) hi
    rw [hentry.assigned, hentry.printed z hz]
  · intro l hl halive z hz n
    exact h.lookup hl halive hz n

instance (s : Session) (e : SessionEvent) : Decidable (Orderly s e) := by
  unfold Orderly
  split <;> infer_instance

/-- A foreground command, and a job in the background. -/
def twoLaunches : List SessionEvent :=
  [.launch false 1 ['a'], .member 1 1 ['a'], .finish 1, .remove 1, .launch true 2 ['b'],
    .member 2 2 ['b'], .activities fun _ => some 'S']

theorem job_numbers_two : ∃ s, OrderlyRun {} twoLaunches s ∧
    s.log = [⟨1, none, some 1, false⟩, ⟨2, some 2, some 2, true⟩] ∧
      ∃ stopped name, groupLookup s.tables 2 64 = some (2, stopped, name) := by
  have h : ((twoLaunches.foldlM (fun s e => if Orderly s e then sessionStep s e else none) {}).any
      fun s => decide (s.log = [⟨1, none, some 1, false⟩, ⟨2, some 2, some 2, true⟩])) = true := by
    decide +kernel
  obtain ⟨s, hs, hend⟩ := (Option.any_eq_true _ _).mp h
  have hlog := of_decide_eq_true hend
  have hrun : OrderlyRun {} twoLaunches s := Lib.run_of_foldlM hs
  obtain ⟨-, -, hlookup⟩ := job_numbers hrun
  have hmem : (⟨2, some 2, some 2, true⟩ : Launch) ∈ s.log := by
    rw [hlog]
    exact List.mem_cons_of_mem _ List.mem_cons_self
  exact ⟨s, hrun, hlog, hlookup _ hmem rfl 2 rfl 64⟩

/-! ### A full table -/

/-- A foreground command that is run to its end. -/
def oneCommand : List SessionEvent := [.launch false 1 ['a'], .finish 1, .remove 1]

/-- After `n` commands nothing is alive and `n` numbers have been used. -/
structure Used (n : ℕ) (s : Session) : Prop where
  groups : s.tables.groups.length = n
  ids : ∀ g ∈ s.tables.groups, g.jobId ≤ n
  next : s.tables.nextJobNumber = n + 1
  jobs : s.tables.jobs = []
  dead : ∀ l ∈ s.log, l.alive = false

theorem Used.not_isFor {n : ℕ} (h : Used n s) (pgid : ℕ) :
    s.log.any (Launch.isFor pgid) = false := by
  rw [List.any_eq_false]
  intro l hl
  simp [Launch.isFor, h.dead l hl]

theorem Used.oneCommand {n : ℕ} (h : Used n s) (hn : n < maxJobs) :
    ∃ t, oneCommand.foldlM sessionStep s = some t ∧ Used (n + 1) t := by
  have hadd : groupAdd s.tables 1 ['a'] = { s.tables with
      groups := s.tables.groups ++ [⟨1, n + 1, ['a'], true, false⟩]
      nextJobNumber := n + 1 + 1 } := by
    rw [groupAdd, if_pos (h.groups ▸ hn), h.next]
    rfl
  have hlaunch : sessionStep s (.launch false 1 ['a']) = some (launch s false 1 ['a']) := by
    simp only [sessionStep, h.not_isFor, Bool.false_eq_true, if_false]
  refine ⟨{
    tables := groupRemove (launch s false 1 ['a']).tables 1
    log := (launch s false 1 ['a']).log.map fun l =>
      if l.pgid = 1 then { l with alive := false } else l }, ?_, ?_⟩
  · rw [Jobs.oneCommand, List.foldlM_cons, hlaunch]
    rfl
  · refine ⟨?_, ?_, ?_, ?_, ?_⟩
    · simp [launch, hadd, groupRemove, h.groups]
    · intro g hg
      simp only [launch, Bool.false_eq_true, if_false, hadd, groupRemove] at hg
      have hold : ∀ g ∈ s.tables.groups ++ [(⟨1, n + 1, ['a'], true, false⟩ : ProcGroup)],
          g.jobId ≤ ((n + 1 : ℕ) : ℤ) := by
        intro g hg
        rcases List.mem_append.mp hg with hg | hg
        · have := h.ids g hg
          omega
        · rw [List.mem_singleton.mp hg]
          exact le_of_eq (by push_cast; rfl)
      rcases Lib.mem_updateFirst hg with hg | ⟨g', hg', -, rfl⟩
      · exact hold g hg
      · exact hold g' hg'
    · simp [launch, hadd, groupRemove]
    · simp [launch, hadd, groupRemove, h.jobs]
    · intro l hl
      simp only [launch, List.map_append, List.map_cons, List.map_nil, List.mem_append,
        List.mem_map, List.mem_singleton] at hl
      rcases hl with ⟨l', hl', rfl⟩ | rfl
      · split
        · rfl
        · exact h.dead l' hl'
      · rfl

theorem used_replicate {n : ℕ} (hn : n ≤ maxJobs) :
    ∃ s, (List.replicate n oneCommand).flatten.foldlM sessionStep {} = some s ∧ Used n s := by
  induction n with
  | zero =>
    refine ⟨{}, rfl, rfl, fun g hg => ?_, rfl, rfl, fun l hl => ?_⟩
    · cases hg
    · cases hl
  | succ n ih =>
    obtain ⟨s, hs, hused⟩ := ih (Nat.le_of_succ_le hn)
    obtain ⟨t, ht, hused'⟩ := hused.oneCommand hn
    refine ⟨t, ?_, hused'⟩
    rw [List.replicate_succ', List.flatten_append, List.foldlM_append, hs]
    simpa using ht

/-- With a full table of groups a background launch is given a number and no group. -/
theorem launch_full (hfull : s.tables.groups.length = maxJobs)
    (hroom : s.tables.jobs.length < maxJobs) (pgid : ℕ) (cmdName : Str) :
    (launch s true pgid cmdName).log =
        s.log ++ [⟨pgid, some s.tables.nextJobNumber, none, true⟩] ∧
      (launch s true pgid cmdName).tables.groups = s.tables.groups ∧
      (launch s true pgid cmdName).tables.nextJobNumber = s.tables.nextJobNumber ∧
      (launch s true pgid cmdName).tables.jobs.length = s.tables.jobs.length + 1 := by
  have hnot : ¬s.tables.groups.length < maxJobs := by
    rw [hfull]
    exact lt_irrefl _
  simp only [launch, jobAdd, if_pos hroom, if_true, groupAdd, if_neg hnot, newGroup, lt_irrefl,
    if_false, List.length_append, List.length_singleton, and_self]

/-- As many commands as the table of groups has entries, and then two jobs. -/
def longSession : List SessionEvent :=
  (List.replicate maxJobs oneCommand).flatten ++ [.launch true 2 ['b'], .launch true 3 ['c']]

/-- Both jobs are alive and have been printed with the same number, and it finds no
group. -/
theorem numbers_repeat : ∃ s, Lib.Run (fun s e t => sessionStep s e = some t) {} longSession s ∧
    (∃ log, s.log = log ++ [⟨2, some 4097, none, true⟩, ⟨3, some 4097, none, true⟩]) ∧
      groupLookup s.tables 4097 64 = none := by
  obtain ⟨s, hs, hused⟩ := used_replicate (le_refl maxJobs)
  have hnext : s.tables.nextJobNumber = 4097 := hused.next
  obtain ⟨hlogB, hgroupsB, hnextB, hjobsB⟩ :=
    launch_full hused.groups (by rw [hused.jobs]; decide) 2 ['b']
  obtain ⟨hlogC, hgroupsC, -, -⟩ := launch_full (s := launch s true 2 ['b'])
    (by rw [hgroupsB, hused.groups]) (by rw [hjobsB, hused.jobs]; decide) 3 ['c']
  have hb : sessionStep s (.launch true 2 ['b']) = some (launch s true 2 ['b']) := by
    simp only [sessionStep, hused.not_isFor, Bool.false_eq_true, if_false]
  have hfree : (launch s true 2 ['b']).log.any (Launch.isFor 3) = false := by
    rw [hlogB, List.any_append, hused.not_isFor]
    rfl
  have hc : sessionStep (launch s true 2 ['b']) (.launch true 3 ['c']) =
      some (launch (launch s true 2 ['b']) true 3 ['c']) := by
    simp only [sessionStep, hfree, Bool.false_eq_true, if_false]
  refine ⟨launch (launch s true 2 ['b']) true 3 ['c'], ?_, ⟨s.log, ?_⟩, ?_⟩
  · rw [Lib.run_iff_foldlM, longSession, List.foldlM_append, hs]
    simp only [Option.bind_eq_bind, Option.bind_some, List.foldlM_cons, hb, hc]
    rfl
  · rw [hlogC, hlogB, hnextB, hnext, List.append_assoc]
    rfl
  · have hnone : s.tables.groups.find? (fun g => g.active && g.jobId == 4097) = none := by
      rw [List.find?_eq_none]
      intro g hg
      have hid : g.jobId ≤ 4096 := hused.ids g hg
      simp only [Bool.and_eq_true, beq_iff_eq, not_and]
      omega
    rw [groupLookup, hgroupsC, hgroupsB, hnone]

end Jobs
end RuShell
