import RuShell.Jobs
import RuShell.Lib.Run

/-!
# Completion messages

The handler of `SIGCHLD` queues a message for every background process it reaps, and
the main program writes the queue to the terminal and empties it.  The two share
`pending_msgs` and `pending_count`, and the main program does not block the signal
while it does so.

The ledger is what the messages are about: who owns which process, and which
messages the terminal is owed.  It looks at the events only, not at the tables.

## Main definitions

* `FlushPc`, `flushStep` — `flush_pending_bg_messages`, statement by statement.
* `ShellState`, `Event`, `step` — the main program and the handler.
* `Ledger` — owners and messages owed.
* `Calm` — what has to be excluded for every message to arrive.

## Main results

* `completions_reported` — **in calm runs the messages that are written are those
  that are owed, in order and without repetition, and a flush writes all that were
  owed when it began**.
* `completion_lost` — a message that is queued right before the queue is emptied is
  never written.
-/

namespace RuShell
namespace Jobs

open Lib.Posix (Status)

/-! ### The main program and the handler -/

/-- The statement of `flush_pending_bg_messages` that comes next. -/
inductive FlushPc
  /-- The main program is elsewhere. -/
  | idle
  /-- `if (pending_count == 0) return;` -/
  | test
  /-- `write(STDOUT_FILENO, "\n", 1);` -/
  | newline
  /-- `i < pending_count` -/
  | loop (i : ℕ)
  /-- `write(STDOUT_FILENO, pending_msgs[i], strlen(pending_msgs[i]));` -/
  | body (i : ℕ)
  /-- `pending_count = 0;` -/
  | reset
  deriving DecidableEq, Repr

/-- A process, as the shell sees it. -/
inductive Child
  | absent
  | forked
  /-- It has been entered into the table of jobs. -/
  | registered
  deriving DecidableEq, Repr

/-- The tables, the terminal, and the children that have not been waited for. -/
structure ShellState where
  tables : JobTables := {}
  pc : FlushPc := .idle
  /-- What has been written by flushes. -/
  terminal : List Str := []
  child : ℕ → Child := fun _ => .absent

/-- What can happen. -/
inductive Event
  | fork (pid : ℕ)
  | jobAdd (pid : ℕ) (cmdName : Str)
  | jobAddMemberBg (jobId : ℤ) (pid : ℕ)
  | groupAdd (pgid : ℕ) (cmdName : Str)
  | groupAddMember (pgid pid : ℕ) (cmdName : Str)
  /-- The main program waits for a child itself. -/
  | wait (pid : ℕ)
  /-- The handler runs and reaps these children. -/
  | handler (reaped : List (ℕ × Status))
  /-- `flush_pending_bg_messages` is called. -/
  | flush
  /-- The next statement of it is executed. -/
  | next
  deriving DecidableEq, Repr

/-- `"\n"` -/
def newline : Str := ['\n']

/-- A statement of `flush_pending_bg_messages`. -/
def flushStep (s : ShellState) : FlushPc → Option ShellState
  | .idle => none
  | .test => some { s with pc := if s.tables.pending.length = 0 then .idle else .newline }
  | .newline => some { s with terminal := s.terminal ++ [newline], pc := .loop 0 }
  | .loop i => some { s with pc := if i < s.tables.pending.length then .body i else .reset }
  | .body i =>
    some { s with terminal := s.terminal ++ [s.tables.pending.getD i []], pc := .loop (i + 1) }
  | .reset => some { s with tables := { s.tables with pending := [] }, pc := .idle }

/-- An iteration of the loop of the handler. -/
def reapStep (s : ShellState) (c : ℕ × Status) : Option ShellState :=
  if s.child c.1 ≠ .absent ∧ c.2 ≠ .stopped then
    some { s with
      tables := handleChild s.tables c.1 c.2
      child := Function.update s.child c.1 .absent }
  else none

/-- A process that is still there becomes a registered one. -/
def register (child : ℕ → Child) (pid : ℕ) : ℕ → Child :=
  if child pid = .forked then Function.update child pid .registered else child

/-- What the main program does besides flushing.  It registers a process once at
most. -/
def mainStep (s : ShellState) : Event → Option ShellState
  | .fork pid =>
    if s.child pid = .absent then some { s with child := Function.update s.child pid .forked }
    else none
  | .jobAdd pid cmdName =>
    if s.child pid ≠ .registered then
      some { s with tables := (jobAdd s.tables pid cmdName).2, child := register s.child pid }
    else none
  | .jobAddMemberBg jobId pid =>
    if s.child pid ≠ .registered then
      some { s with tables := jobAddMemberBg s.tables jobId pid, child := register s.child pid }
    else none
  | .groupAdd pgid cmdName => some { s with tables := groupAdd s.tables pgid cmdName }
  | .groupAddMember pgid pid cmdName =>
    some { s with tables := groupAddMember s.tables pgid pid cmdName }
  | .wait pid =>
    if s.child pid ≠ .absent then some { s with child := Function.update s.child pid .absent }
    else none
  | .flush => some { s with pc := .test }
  | _ => none

/-- The step function; `none` if the event cannot happen now. -/
def step (s : ShellState) (e : Event) : Option ShellState :=
  if s.tables.overrun then none
  else
    match e with
    | .handler reaped => reaped.foldlM reapStep s
    | .next => flushStep s s.pc
    | e => if s.pc = .idle then mainStep s e else none

/-- The completion messages on the terminal: what a flush writes besides the newline. -/
def ShellState.completions (s : ShellState) : List Str := s.terminal.filter (· ≠ newline)

/-! ### The ledger -/

/-- Which processes belong to which job, and which messages the terminal is owed. -/
structure Ledger where
  owner : ℕ → Option Str := fun _ => none
  owed : List Str := []

/-- A process is reaped by the handler: one message, if it leads a job. -/
def Ledger.reap (l : Ledger) (c : ℕ × Status) : Ledger :=
  match l.owner c.1 with
  | none => l
  | some name =>
    { owner := Function.update l.owner c.1 none
      owed := l.owed ++ (completionMessage name c.1 c.2).toList }

/-- What an event means for the ledger. -/
def Ledger.step (l : Ledger) : Event → Ledger
  | .jobAdd pid cmdName => { l with owner := Function.update l.owner pid (some cmdName) }
  | .wait pid => { l with owner := Function.update l.owner pid none }
  | .handler reaped => reaped.foldl Ledger.reap l
  | _ => l

/-- The ledger after some events. -/
def ledger (es : List Event) : Ledger := es.foldl Ledger.step {}

/-! ### Calm runs -/

/-- A child is reaped calmly: if it has an entry, then the entry is that of a leader,
the message fits into a slot, there is a slot, and the queue is not just about to be
emptied. -/
def CalmReap (s : ShellState) (c : ℕ × Status) : Prop :=
  ∀ job ∈ findJobByPid s.tables.jobs c.1,
    job.isLeader = true ∧ (∀ msg ∈ completionMessage job.cmdName c.1 c.2, msg.length < msgLen) ∧
      s.tables.pending.length < maxPending ∧ s.pc ≠ .reset

/-- Every child that a handler reaps is reaped calmly. -/
def CalmReaps : ShellState → List (ℕ × Status) → Prop
  | _, [] => True
  | s, c :: reaped => CalmReap s c ∧ ∀ t ∈ reapStep s c, CalmReaps t reaped

/-- A process is registered while it is there, and there is room for it; the main
program does not itself wait for a registered process; children are reaped calmly. -/
def Calm (s : ShellState) : Event → Prop
  | .jobAdd pid _ => s.child pid = .forked ∧ s.tables.jobs.length < maxJobs
  | .jobAddMemberBg _ pid => s.child pid = .forked
  | .wait pid => s.child pid ≠ .registered
  | .handler reaped => CalmReaps s reaped
  | _ => True

/-- A run whose steps are all calm. -/
def CalmRun : ShellState → List Event → ShellState → Prop :=
  Lib.Run fun s e t => Calm s e ∧ step s e = some t

/-! ### The table of jobs and the owners -/

/-- The active entries of a process. -/
def live (jobs : List BgJob) (pid : ℕ) : List BgJob := jobs.filter (BgJob.isFor pid)

/-- The active entries of a process agree with the ledger: there is at most one, only
a registered process has one, and if it leads a job then the job owns the process. -/
def Tracks : List BgJob → Child → Option Str → Prop
  | [], _, owner => owner = none
  | [job], child, owner =>
    child = .registered ∧
      owner.map (strncpy 256) = if job.isLeader then some job.cmdName else none
  | _, _, _ => False

theorem findJobByPid_eq_head? (jobs : List BgJob) (pid : ℕ) :
    findJobByPid jobs pid = (live jobs pid).head? := List.head?_filter.symm

/-- A new entry. -/
theorem live_append (jobs : List BgJob) (job : BgJob) (pid : ℕ) :
    live (jobs ++ [job]) pid = live jobs pid ++ if job.isFor pid then [job] else [] := by
  unfold live
  rw [List.filter_append]
  congr 1
  cases h : job.isFor pid <;> simp [h]

variable {pid : ℕ} {status : Status} {l : Ledger} {s t : ShellState} {e : Event} {c : ℕ × Status}
  {pc : FlushPc} {msg name : Str} {owner : Option Str} {child : Child} {job : BgJob}

theorem live_append_of_ne (jobs : List BgJob) (h : pid ≠ job.pid) :
    live (jobs ++ [job]) pid = live jobs pid := by
  have hfor : job.isFor pid = false := by simp [BgJob.isFor, h.symm]
  rw [live_append, hfor]
  exact List.append_nil _

/-- The entries of the process that is reaped, and those of the others. -/
theorem live_deactivate (jobs : List BgJob) (pid : ℕ) :
    live (Lib.updateFirst (BgJob.isFor pid) (fun j => { j with active := false }) jobs) pid =
      (live jobs pid).tail :=
  Lib.filter_updateFirst fun j _ => by simp [BgJob.isFor]

theorem live_deactivate_of_ne (jobs : List BgJob) {pid' : ℕ} (h : pid' ≠ pid) :
    live (Lib.updateFirst (BgJob.isFor pid) (fun j => { j with active := false }) jobs) pid' =
      live jobs pid' := by
  refine Lib.filter_updateFirst_of_disjoint fun j hj => ?_
  have hpid : j.pid = pid := by
    simp only [BgJob.isFor, Bool.and_eq_true, beq_iff_eq] at hj
    exact hj.1
  simp [BgJob.isFor, hpid, h.symm]

/-- A process that is not registered has no entry. -/
theorem Tracks.nil_of_ne {jobs : List BgJob}
    (h : Tracks jobs child owner) (hchild : child ≠ .registered) : jobs = [] ∧ owner = none := by
  match jobs, h with
  | [], h => exact ⟨rfl, h⟩
  | [_], h => exact absurd h.1 hchild
  | _ :: _ :: _, h => exact h.elim

/-- The owner of a process whose entry is found. -/
theorem Tracks.of_head? {jobs : List BgJob}
    (h : Tracks jobs child owner) (hjob : jobs.head? = some job) (hleader : job.isLeader = true) :
    jobs.tail = [] ∧ ∃ name, owner = some name ∧ job.cmdName = strncpy 256 name := by
  match jobs, h, hjob with
  | [_], h, rfl =>
    obtain ⟨-, h⟩ := h
    rw [hleader] at h
    obtain ⟨name, hname, hcmd⟩ := Option.map_eq_some_iff.mp h
    exact ⟨rfl, name, hname, hcmd.symm⟩
  | _ :: _ :: _, h, _ => exact h.elim

/-! ### Messages -/

/-- A message is longer than the name in it, and than a newline. -/
theorem length_lt_completionMessage
    (h : completionMessage name pid status = some msg) : name.length + 1 < msg.length := by
  cases status with
  | exited =>
    cases h
    have hword : " exited normally\n".toList.length = 17 := by decide
    simp only [List.length_append, hword]
    omega
  | signaled =>
    cases h
    have hword : " exited abnormally\n".toList.length = 19 := by decide
    simp only [List.length_append, hword]
    omega
  | stopped => cases h

theorem completionMessage_ne_newline
    (h : completionMessage name pid status = some msg) : msg ≠ newline := by
  rintro rfl
  have := length_lt_completionMessage h
  simp [newline] at this

theorem exists_completionMessage (name : Str) (pid : ℕ) (h : status ≠ .stopped) :
    ∃ msg, completionMessage name pid status = some msg := by
  cases status with
  | exited | signaled => exact ⟨_, rfl⟩
  | stopped => exact absurd rfl h

/-- If the message fits into its slot then the name was not cut. -/
theorem strncpy_of_fits
    (h : completionMessage (strncpy 256 name) pid status = some msg) (hlen : msg.length < msgLen) :
    strncpy 256 name = name := by
  have hname := length_lt_completionMessage h
  unfold msgLen at hlen
  unfold strncpy at hname ⊢
  rw [List.length_take] at hname
  exact List.take_of_length_le (by omega)

/-! ### Reaping -/

/-- Where a flush is, the queue is long enough. -/
def PcOk : FlushPc → ℕ → Prop
  | .loop i, n => i ≤ n
  | .body i, n => i < n
  | _, _ => True

/-- The messages in the queue that have not been written. -/
def unwritten : FlushPc → List Str → List Str
  | .loop i, pending => pending.drop i
  | .body i, pending => pending.drop i
  | .reset, _ => []
  | _, pending => pending

/-- A message that is queued is one more to be written, unless the queue is just
about to be emptied. -/
theorem unwritten_append {pending : List Str} (hpc : PcOk pc pending.length)
    (hreset : pc ≠ .reset) (msg : Str) :
    unwritten pc (pending ++ [msg]) = unwritten pc pending ++ [msg] := by
  cases pc with
  | loop i => exact List.drop_append_of_le_length hpc
  | body i => exact List.drop_append_of_le_length (Nat.le_of_lt hpc)
  | reset => exact absurd rfl hreset
  | _ => rfl

theorem PcOk.mono {n m : ℕ} (h : PcOk pc n) (hnm : n ≤ m) : PcOk pc m := by
  cases pc with
  | loop i => exact le_trans h hnm
  | body i => exact lt_of_lt_of_le h hnm
  | _ => trivial

/-- The shell and the ledger agree. -/
structure Agrees (s : ShellState) (l : Ledger) : Prop where
  tracks : ∀ pid, Tracks (live s.tables.jobs pid) (s.child pid) (l.owner pid)
  written : s.completions ++ unwritten s.pc s.tables.pending = l.owed
  pcOk : PcOk s.pc s.tables.pending.length
  messages : ∀ msg ∈ s.tables.pending, msg ≠ newline

/-- A child without an entry: nobody owns it. -/
theorem Agrees.reap_none (h : Agrees s l)
    (hfind : findJobByPid s.tables.jobs c.1 = none) :
    Agrees
      { s with
        tables := handleChild s.tables c.1 c.2
        child := Function.update s.child c.1 .absent } (l.reap c) := by
  have hlive : live s.tables.jobs c.1 = [] := by
    rw [findJobByPid_eq_head?] at hfind
    exact List.head?_eq_none_iff.mp hfind
  have howner : l.owner c.1 = none := by
    have htrack := h.tracks c.1
    rwa [hlive] at htrack
  simp only [handleChild, hfind, Ledger.reap, howner]
  refine ⟨fun pid => ?_, h.written, h.pcOk, h.messages⟩
  by_cases hpid : pid = c.1
  · subst hpid
    change Tracks (live s.tables.jobs c.1) _ _
    rw [hlive]
    exact howner
  · change Tracks _ (Function.update s.child c.1 .absent pid) _
    rw [Function.update_of_ne hpid]
    exact h.tracks pid

/-- A child with an entry, reaped calmly: its message is queued. -/
theorem Agrees.reap_some (h : Agrees s l) (hc : c.2 ≠ .stopped)
    (hcalm : CalmReap s c) (hfind : findJobByPid s.tables.jobs c.1 = some job) :
    Agrees
      { s with
        tables := handleChild s.tables c.1 c.2
        child := Function.update s.child c.1 .absent } (l.reap c) := by
  obtain ⟨hleader, hfits, hroom, hreset⟩ := hcalm job hfind
  obtain ⟨msg, hmsg⟩ := exists_completionMessage job.cmdName c.1 hc
  have hlen : msg.length < msgLen := hfits msg hmsg
  have hhead := hfind
  rw [findJobByPid_eq_head?] at hhead
  obtain ⟨htail, name, howner, hname⟩ := (h.tracks c.1).of_head? hhead hleader
  have hcut : strncpy 256 name = name := strncpy_of_fits (hname ▸ hmsg) hlen
  have howed : l.reap c =
      { owner := Function.update l.owner c.1 none, owed := l.owed ++ [msg] } := by
    rw [hname, hcut] at hmsg
    simp only [Ledger.reap, howner, hmsg, Option.toList_some]
  simp only [handleChild, hfind, hmsg, pushPending, if_pos hroom, if_pos hlen, howed]
  refine ⟨fun pid => ?_, ?_, ?_, ?_⟩
  · by_cases hpid : pid = c.1
    · subst hpid
      simp only [live_deactivate, htail, Function.update_self]
      rfl
    · simp only [live_deactivate_of_ne _ hpid, Function.update_of_ne hpid]
      exact h.tracks pid
  · change s.completions ++ unwritten s.pc (s.tables.pending ++ [msg]) = l.owed ++ [msg]
    rw [unwritten_append h.pcOk hreset, ← List.append_assoc, h.written]
  · change PcOk s.pc (s.tables.pending ++ [msg]).length
    exact h.pcOk.mono (by simp)
  · intro m hm
    rcases List.mem_append.mp hm with hm | hm
    · exact h.messages m hm
    · rw [List.mem_singleton.mp hm]
      exact completionMessage_ne_newline hmsg

/-- What reaping a child leaves alone. -/
theorem reapStep_eq (h : reapStep s c = some t) :
    c.2 ≠ .stopped ∧ t = { s with
      tables := handleChild s.tables c.1 c.2
      child := Function.update s.child c.1 .absent } := by
  unfold reapStep at h
  split at h
  · rename_i hc
    exact ⟨hc.2, (Option.some.inj h).symm⟩
  · cases h

theorem Agrees.reap (h : Agrees s l) (hcalm : CalmReap s c)
    (hstep : reapStep s c = some t) : Agrees t (l.reap c) := by
  obtain ⟨hc, rfl⟩ := reapStep_eq hstep
  cases hfind : findJobByPid s.tables.jobs c.1 with
  | none => exact h.reap_none hfind
  | some job => exact h.reap_some hc hcalm hfind

/-- The loop of the handler. -/
theorem Agrees.reaps {reaped : List (ℕ × Status)} (h : Agrees s l) (hcalm : CalmReaps s reaped)
    (hstep : reaped.foldlM reapStep s = some t) :
    Agrees t (reaped.foldl Ledger.reap l) := by
  induction reaped generalizing s l with
  | nil =>
    cases hstep
    exact h
  | cons c reaped ih =>
    rw [List.foldlM_cons] at hstep
    obtain ⟨u, hu, hrest⟩ := Option.bind_eq_some_iff.mp hstep
    exact ih (h.reap hcalm.1 hu) (hcalm.2 u hu) hrest

/-- The handler writes nothing, and the main program goes on where it was. -/
theorem reaps_frame {reaped : List (ℕ × Status)} (hstep : reaped.foldlM reapStep s = some t) :
    t.pc = s.pc ∧ t.terminal = s.terminal := by
  induction reaped generalizing s with
  | nil =>
    cases hstep
    exact ⟨rfl, rfl⟩
  | cons c reaped ih =>
    rw [List.foldlM_cons] at hstep
    obtain ⟨u, hu, hrest⟩ := Option.bind_eq_some_iff.mp hstep
    have hframe := ih hrest
    obtain ⟨-, rfl⟩ := reapStep_eq hu
    exact hframe

/-! ### Flushing -/

/-- A statement of `flush_pending_bg_messages` owes nobody a message and drops none. -/
theorem Agrees.flushStep (h : Agrees s l) (hstep : flushStep s s.pc = some t) : Agrees t l := by
  have hwritten := h.written
  have hpc := h.pcOk
  generalize s.pc = pc at hstep hwritten hpc
  cases pc with
  | idle => cases hstep
  | test =>
    cases hstep
    refine ⟨h.tracks, ?_, ?_, h.messages⟩
    · dsimp only
      split <;> exact hwritten
    · dsimp only
      split <;> trivial
  | newline =>
    cases hstep
    refine ⟨h.tracks, ?_, Nat.zero_le _, h.messages⟩
    simpa [ShellState.completions, unwritten] using hwritten
  | loop i =>
    cases hstep
    refine ⟨h.tracks, ?_, ?_, h.messages⟩
    · dsimp only
      split
      · exact hwritten
      · rename_i hi
        have hdrop : s.tables.pending.drop i = [] := List.drop_eq_nil_of_le (by omega)
        change s.completions ++ s.tables.pending.drop i = l.owed at hwritten
        rw [hdrop] at hwritten
        exact hwritten
    · dsimp only
      split
      · assumption
      · trivial
  | body i =>
    cases hstep
    have hi : i < s.tables.pending.length := hpc
    have hmsg : s.tables.pending[i] ≠ newline := h.messages _ (List.getElem_mem hi)
    change s.completions ++ s.tables.pending.drop i = l.owed at hwritten
    rw [List.drop_eq_getElem_cons hi] at hwritten
    refine ⟨h.tracks, ?_, hi, h.messages⟩
    simpa [ShellState.completions, unwritten, hi, hmsg] using hwritten
  | reset =>
    cases hstep
    exact ⟨h.tracks, hwritten, trivial, fun _ hm => (by cases hm)⟩

/-! ### Registration -/

/-- A process that is there is entered into the table of jobs. -/
theorem tracks_register (h : Agrees s l) (hchild : s.child pid = .forked)
    (hpid : job.pid = pid) (hactive : job.active = true)
    (howner : owner.map (strncpy 256) = if job.isLeader then some job.cmdName else none) (p : ℕ) :
    Tracks (live (s.tables.jobs ++ [job]) p) (register s.child pid p)
      (Function.update l.owner pid owner p) := by
  have hnil : live s.tables.jobs pid = [] :=
    ((h.tracks pid).nil_of_ne (by simp [hchild])).1
  rw [register, if_pos hchild]
  by_cases hp : p = pid
  · subst hp
    have hfor : job.isFor p = true := by simp [BgJob.isFor, hpid, hactive]
    rw [live_append, hnil, hfor, Function.update_self, Function.update_self]
    exact ⟨rfl, howner⟩
  · rw [live_append_of_ne _ (hpid ▸ hp), Function.update_of_ne hp, Function.update_of_ne hp]
    exact h.tracks p

theorem Agrees.jobAddMemberBg (h : Agrees s l) {jobId : ℤ} (hchild : s.child pid = .forked) :
    Agrees { s with tables := jobAddMemberBg s.tables jobId pid, child := register s.child pid }
      l := by
  obtain ⟨hnil, howner⟩ := (h.tracks pid).nil_of_ne (by simp [hchild])
  have hsame : Function.update l.owner pid none = l.owner := by
    rw [← howner, Function.update_eq_self]
  rw [Jobs.jobAddMemberBg]
  split
  · refine ⟨fun p => ?_, h.written, h.pcOk, h.messages⟩
    rw [← hsame]
    exact tracks_register h hchild rfl rfl rfl p
  -- The table is full: the process gets no entry.
  · refine ⟨fun p => ?_, h.written, h.pcOk, h.messages⟩
    change Tracks (live s.tables.jobs p) (register s.child pid p) (l.owner p)
    rw [register, if_pos hchild]
    by_cases hp : p = pid
    · subst hp
      rw [hnil]
      exact howner
    · rw [Function.update_of_ne hp]
      exact h.tracks p

/-- The processes without an entry come and go. -/
theorem Agrees.setChild {l' : Ledger} (h : Agrees s l)
    (hchild : s.child pid ≠ .registered) (howner : ∀ p, p ≠ pid → l'.owner p = l.owner p)
    (hpid : l'.owner pid = none) (howed : l'.owed = l.owed) :
    Agrees { s with child := Function.update s.child pid child } l' := by
  obtain ⟨hnil, -⟩ := (h.tracks pid).nil_of_ne hchild
  refine ⟨fun p => ?_, howed ▸ h.written, h.pcOk, h.messages⟩
  by_cases hp : p = pid
  · subst hp
    change Tracks (live s.tables.jobs p) _ _
    rw [hnil]
    exact hpid
  · change Tracks _ (Function.update s.child pid child p) _
    rw [Function.update_of_ne hp, howner p hp]
    exact h.tracks p

/-! ### Whole runs -/

/-- Who makes a step: the handler, a flush, or the main program elsewhere. -/
theorem step_cases (h : step s e = some t) :
    (∃ reaped, e = .handler reaped ∧ reaped.foldlM reapStep s = some t) ∨
      (e = .next ∧ flushStep s s.pc = some t) ∨ (s.pc = .idle ∧ mainStep s e = some t) := by
  unfold step at h
  split at h
  · cases h
  · split at h
    · exact .inl ⟨_, rfl, h⟩
    · exact .inr (.inl ⟨rfl, h⟩)
    · split at h
      · rename_i hidle
        exact .inr (.inr ⟨hidle, h⟩)
      · cases h

/-- Steps of the main program outside a flush. -/
theorem Agrees.mainStep (h : Agrees s l) (hcalm : Calm s e) (hidle : s.pc = .idle)
    (hstep : mainStep s e = some t) :
    Agrees t (l.step e) := by
  cases e with
  | fork pid =>
    simp only [Jobs.mainStep] at hstep
    split at hstep
    · rename_i hchild
      cases hstep
      have hne : s.child pid ≠ .registered := by simp [hchild]
      exact h.setChild hne (fun _ _ => rfl) ((h.tracks pid).nil_of_ne hne).2 rfl
    · cases hstep
  | jobAdd pid cmdName =>
    simp only [Jobs.mainStep] at hstep
    split at hstep
    · cases hstep
      rw [Jobs.jobAdd, if_pos hcalm.2]
      exact ⟨tracks_register h hcalm.1 rfl rfl rfl, h.written, h.pcOk, h.messages⟩
    · cases hstep
  | jobAddMemberBg jobId pid =>
    simp only [Jobs.mainStep] at hstep
    split at hstep
    · cases hstep
      exact h.jobAddMemberBg hcalm
    · cases hstep
  | groupAdd pgid cmdName =>
    cases hstep
    unfold groupAdd
    split
    · exact ⟨h.tracks, h.written, h.pcOk, h.messages⟩
    · exact h
  | groupAddMember pgid pid cmdName =>
    cases hstep
    unfold groupAddMember
    split
    · exact ⟨h.tracks, h.written, h.pcOk, h.messages⟩
    · exact h
  | wait pid =>
    simp only [Jobs.mainStep] at hstep
    split at hstep
    · cases hstep
      refine h.setChild hcalm (fun p hp => ?_) ?_ rfl
      · exact Function.update_of_ne hp _ _
      · exact Function.update_self _ _ _
    · cases hstep
  | flush =>
    cases hstep
    have hwritten := h.written
    rw [hidle] at hwritten
    exact ⟨h.tracks, hwritten, trivial, h.messages⟩
  | handler reaped | next => cases hstep

/-- Every calm step keeps the shell and the ledger in agreement. -/
theorem Agrees.step (h : Agrees s l) (hcalm : Calm s e) (hstep : step s e = some t) :
    Agrees t (l.step e) := by
  rcases step_cases hstep with ⟨reaped, rfl, hreaps⟩ | ⟨rfl, hflush⟩ | ⟨hidle, hmain⟩
  · exact h.reaps hcalm hreaps
  · exact h.flushStep hflush
  · exact h.mainStep hcalm hidle hmain

theorem agrees_start : Agrees {} {} := ⟨fun _ => rfl, rfl, trivial, fun _ hm => (by cases hm)⟩

theorem Ledger.owed_reap (l : Ledger) (c : ℕ × Status) : l.owed <+: (l.reap c).owed := by
  unfold Ledger.reap
  split
  · exact List.prefix_rfl
  · exact List.prefix_append _ _

/-- Nothing is forgotten. -/
theorem Ledger.owed_step (l : Ledger) (e : Event) : l.owed <+: (l.step e).owed := by
  cases e with
  | handler reaped =>
    change l.owed <+: (reaped.foldl Ledger.reap l).owed
    induction reaped generalizing l with
    | nil => exact List.prefix_rfl
    | cons c reaped ih => exact (l.owed_reap c).trans (ih (l.reap c))
  | _ => exact List.prefix_rfl

/-- A flush ends with an empty queue. -/
theorem pending_of_flushStep (h : flushStep s pc = some t) (hidle : t.pc = .idle) :
    t.tables.pending = [] := by
  cases pc with
  | idle => cases h
  | test =>
    cases h
    dsimp only at hidle
    split at hidle
    · rename_i hlen
      exact List.length_eq_zero_iff.mp hlen
    · cases hidle
  | newline | body i =>
    cases h
    cases hidle
  | loop i =>
    cases h
    dsimp only at hidle
    split at hidle <;> cases hidle
  | reset =>
    cases h
    rfl

theorem mainStep_terminal (h : mainStep s e = some t) :
    t.terminal = s.terminal := by
  cases e with
  | fork pid | jobAdd pid cmdName | jobAddMemberBg jobId pid | wait pid =>
    simp only [mainStep] at h
    split at h
    · cases h
      rfl
    · cases h
  | groupAdd pgid cmdName | groupAddMember pgid pid cmdName | flush =>
    cases h
    rfl
  | handler reaped | next => cases h

/-- Outside of a flush nothing is written, and when one has just ended the queue is empty. -/
theorem step_idle (h : step s e = some t) (hidle : t.pc = .idle) :
    s.pc = .idle ∧ t.terminal = s.terminal ∨ t.tables.pending = [] := by
  rcases step_cases h with ⟨reaped, rfl, hreaps⟩ | ⟨rfl, hflush⟩ | ⟨hs, hmain⟩
  · obtain ⟨hpc, hterminal⟩ := reaps_frame hreaps
    exact .inl ⟨hpc ▸ hidle, hterminal⟩
  · exact .inr (pending_of_flushStep hflush hidle)
  · exact .inl ⟨hs, mainStep_terminal hmain⟩

/-- A flush is under way, or what was owed at some time has been written. -/
structure Reported (past : List Str) (s : ShellState) (l : Ledger) : Prop where
  agrees : Agrees s l
  owed : past <+: l.owed
  written : s.pc = .idle → past <+: s.completions

theorem Reported.step {past : List Str} (h : Reported past s l) (hcalm : Calm s e)
    (hstep : step s e = some t) :
    Reported past t (l.step e) := by
  have hagrees := h.agrees.step hcalm hstep
  have howed := h.owed.trans (l.owed_step e)
  refine ⟨hagrees, howed, fun hidle => ?_⟩
  rcases step_idle hstep hidle with ⟨hs, hterminal⟩ | hempty
  · rw [ShellState.completions, hterminal]
    exact h.written hs
  -- The flush has just ended, so that everything owed by now is on the terminal.
  · have hwritten := hagrees.written
    rw [hidle, hempty] at hwritten
    have hall : t.completions = (l.step e).owed := by
      rw [← hwritten]
      exact (List.append_nil _).symm
    rw [hall]
    exact howed

/-- A calm run from the start. -/
theorem agrees_of_calmRun {es : List Event} (h : CalmRun {} es s) :
    Agrees s (ledger es) :=
  Lib.Run.history (fun _ _ _ _ hI hstep => hI.step hstep.1 hstep.2) h agrees_start

/-- **Completions are reported once**: the messages on the terminal are, in order,
the first of those that are owed, and once a flush has ended everything that was owed
when it began has been written. -/
theorem completions_reported {es es' : List Event} (hrun : CalmRun {} es s)
    (hrun' : CalmRun s es' t) :
    t.completions <+: (ledger (es ++ es')).owed ∧
      (es'.head? = some .flush → t.pc = .idle → (ledger es).owed <+: t.completions) := by
  have hagrees := agrees_of_calmRun hrun
  constructor
  · have h := agrees_of_calmRun (hrun.append hrun')
    rw [← h.written]
    exact List.prefix_append _ _
  · intro hflush hidle
    cases hrun' with
    | nil => cases hflush
    | @cons _ u _ e rest hstep hrest =>
      obtain rfl : e = .flush := Option.some.inj hflush
      have hu : Reported (ledger es).owed u ((ledger es).step .flush) := by
        refine ⟨hagrees.step hstep.1 hstep.2, List.prefix_rfl, fun hpc => ?_⟩
        rcases step_cases hstep.2 with ⟨_, h, _⟩ | ⟨h, _⟩ | ⟨-, h⟩
        · cases h
        · cases h
        · cases h
          cases hpc
      have ht := Lib.Run.history (fun _ _ _ _ hI hstep => hI.step hstep.1 hstep.2) hrest hu
      exact ht.written hidle

/-! ### Two jobs -/

instance (s : ShellState) (c : ℕ × Status) : Decidable (CalmReap s c) := by
  unfold CalmReap
  infer_instance

instance decidableCalmReaps : ∀ (s : ShellState) (reaped : List (ℕ × Status)),
    Decidable (CalmReaps s reaped)
  | _, [] => isTrue trivial
  | s, c :: reaped =>
    have := fun t => decidableCalmReaps t reaped
    inferInstanceAs (Decidable (CalmReap s c ∧ ∀ t ∈ reapStep s c, CalmReaps t reaped))

instance (s : ShellState) (e : Event) : Decidable (Calm s e) := by
  unfold Calm
  split <;> infer_instance

/-- `a & b &`, and the first job terminates. -/
def launchEvents : List Event :=
  [.fork 1, .jobAdd 1 ['a'], .groupAdd 1 ['a'], .groupAddMember 1 1 ['a'],
    .fork 2, .jobAdd 2 ['b'], .groupAdd 2 ['b'], .groupAddMember 2 2 ['b'],
    .handler [(1, .exited)]]

/-- The second job terminates during the flush that reports the first one. -/
def promptEvents : List Event :=
  [.flush, .next, .next, .next, .next, .handler [(2, .signaled)], .next, .next, .next, .next]

theorem completions_reported_two : ∃ s t, CalmRun {} launchEvents s ∧
    CalmRun s promptEvents t ∧ t.pc = .idle ∧
      t.completions <+: (ledger (launchEvents ++ promptEvents)).owed ∧
        (ledger launchEvents).owed <+: t.completions := by
  have h : ((launchEvents.foldlM (fun s e => if Calm s e then step s e else none) {}).any fun s =>
      (promptEvents.foldlM (fun s e => if Calm s e then step s e else none) s).any fun t =>
        decide (t.pc = .idle)) = true := by decide +kernel
  obtain ⟨s, hs, hany⟩ := (Option.any_eq_true _ _).mp h
  obtain ⟨t, ht, hidle⟩ := (Option.any_eq_true _ _).mp hany
  have hrun : CalmRun {} launchEvents s := Lib.run_of_foldlM hs
  have hrun' : CalmRun s promptEvents t := Lib.run_of_foldlM ht
  obtain ⟨hkept, hflush⟩ := completions_reported hrun hrun'
  exact ⟨s, t, hrun, hrun', of_decide_eq_true hidle, hkept,
    hflush rfl (of_decide_eq_true hidle)⟩

/-- The second job terminates after the last test of the loop. -/
def lateEvents : List Event :=
  launchEvents ++ [.flush, .next, .next, .next, .next, .next, .handler [(2, .exited)], .next]

/-- The message of the second job is never written: the flush that was under way has
emptied the queue, and the next one finds nothing. -/
theorem completion_lost : ∃ s t, Lib.Run (fun s e t => step s e = some t) {} lateEvents s ∧
    Lib.Run (fun s e t => step s e = some t) s [.flush, .next] t ∧ t.pc = .idle ∧
      (ledger lateEvents).owed =
        ["a with pid 1 exited normally\n".toList, "b with pid 2 exited normally\n".toList] ∧
      t.completions = ["a with pid 1 exited normally\n".toList] := by
  have h : ((lateEvents.foldlM step {}).any fun s => ([.flush, .next].foldlM step s).any fun t =>
      decide (t.pc = .idle ∧ t.completions = ["a with pid 1 exited normally\n".toList])) =
        true := by decide +kernel
  obtain ⟨s, hs, hany⟩ := (Option.any_eq_true _ _).mp h
  obtain ⟨t, ht, hend⟩ := (Option.any_eq_true _ _).mp hany
  obtain ⟨hidle, hwritten⟩ := of_decide_eq_true hend
  exact ⟨s, t, (Lib.run_iff_foldlM _ _ _ _).mpr hs, (Lib.run_iff_foldlM _ _ _ _).mpr ht, hidle,
    by decide +kernel, hwritten⟩

end Jobs
end RuShell
