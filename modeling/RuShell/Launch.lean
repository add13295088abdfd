import RuShell.Directory
import RuShell.LaunchRules

/-!
# Launching with the job tables

The programs of `redirect.c` once more, now with what their bookkeeping calls do: they
put processes into process groups, enter them into the job tables and print messages.
The handler of `SIGCHLD` may run before every call.

A process that is forked starts in the process group of the shell.  `setpgid` without
a group, that is, with `-1`, fails and leaves it there.

## Main definitions

* `LaunchState`, `launchEffect` — the tables, the processes that were forked, their
  groups, and what the waits have returned.
* `Alike` — two states that differ only in what the handler can change and in what has
  been printed.
* `Quiet` — the calls that leave the state alike.
* `Setting`, `Forking` — before the stages are forked, and while they are.

## Main results

* `crew_setting` — every helper that is forked belongs to a stage.
* `forkStages_forking` — the stages that are forked join the group of the first one.
-/

namespace RuShell
namespace Redirect

open Lib.Posix
open RuShell.Segment
open RuShell.Jobs (JobTables ProcEntry ProcGroup)

/-! ### The state of a launch -/

/-- What a bookkeeping call does to the tables. -/
def bookTables (t : JobTables) : Book → JobTables
  | .groupAdd pgid name => Jobs.groupAdd t pgid name
  | .groupAddMember pgid pid name => Jobs.groupAddMember t pgid pid name
  | .jobAdd pid name => (Jobs.jobAdd t pid name).2
  | .jobAddMemberBg jobId pid => Jobs.jobAddMemberBg t jobId pid
  | .markGroupStopped pgid => (Jobs.markGroupStopped t pgid).2
  | .groupRemove pgid => Jobs.groupRemove t pgid
  | _ => t

/-- What it does to the directory. -/
def Directory.book (d : Directory) : Book → Directory
  | .groupAdd pgid _ => d.addGroup pgid
  | .groupAddMember pgid _ name => d.addName pgid name
  | _ => d

theorem directory_bookTables (t : JobTables) (b : Book) :
    directory (bookTables t b) = (directory t).book b := by
  cases b with
  | groupAdd pgid name => exact directory_groupAdd t pgid name
  | groupAddMember pgid pid name => exact directory_groupAddMember t pgid pid name
  | jobAdd pid name => exact directory_jobAdd t pid name
  | jobAddMemberBg jobId pid => exact directory_jobAddMemberBg t jobId pid
  | markGroupStopped pgid => exact directory_markGroupStopped t pgid
  | groupRemove pgid => exact directory_groupRemove t pgid
  | _ => rfl

/-- What it returns, if that depends on the tables. -/
def bookValue (t : JobTables) : Book → Option ℤ
  | .jobAdd pid name => some (Jobs.jobAdd t pid name).1
  | .markGroupStopped pgid => some (Jobs.markGroupStopped t pgid).1
  | _ => none

/-- The tables, and what has happened since the launch began. -/
structure LaunchState where
  tables : JobTables
  /-- The processes that were forked, and what for. -/
  forked : List (ℕ × Role) := []
  /-- The process group of a process; `none` is that of the shell. -/
  pgrp : ℕ → Option ℕ := fun _ => none
  /-- What the waits for the stages have returned. -/
  statuses : List (ℕ × Status) := []
  /-- What has been printed. -/
  out : List Str := []

/-- The process groups after a call. -/
def bookPgrp (pgrp : ℕ → Option ℕ) : Book → ℕ → Option ℕ
  | .setpgid pid (some pgid) => Function.update pgrp pid (some pgid)
  | _ => pgrp

/-- What has been printed after a call. -/
def bookOut (out : List Str) : Book → List Str
  | .printf text => out ++ [text]
  | _ => out

/-- A bookkeeping call. -/
def LaunchState.book (l : LaunchState) (b : Book) : LaunchState :=
  { l with
    tables := bookTables l.tables b
    pgrp := bookPgrp l.pgrp b
    out := bookOut l.out b }

/-- The handler runs and reaps children. -/
def LaunchState.handle (l : LaunchState) (reaped : List (ℕ × Status)) : LaunchState :=
  { l with tables := Jobs.sigchldHandler l.tables reaped }

/-- The wait for a stage returns. -/
def LaunchState.record (l : LaunchState) (pid : ℕ) (status : Status) : LaunchState :=
  { l with statuses := l.statuses ++ [(pid, status)] }

/-- What the calls do. -/
def launchCall : (c : Call sh) → LaunchState → c.Ret → LaunchState → Prop
  | .book b, l, z, l' => (∀ w ∈ bookValue l.tables b, z = w) ∧ l' = l.book b
  | .wait pid true, l, status, l' => l' = l.record pid status
  | _, l, _, l' => l' = l

/-- What a fork does: the child gets a new pid. -/
def launchFork (r : Role) (l : LaunchState) : Option ℕ → LaunchState → Prop
  | some pid, l' => pid ∉ l.forked.map Prod.fst ∧
      l' = { l with
        forked := l.forked ++ [(pid, r)]
        pgrp := Function.update l.pgrp pid none }
  | none, l' => l' = l

/-- The effect of the calls; the handler may run before each of them. -/
def launchEffect : Effect sh LaunchState where
  call c l x l' := ∃ reaped, launchCall c (l.handle reaped) x l'
  fork r l pid l' := launchFork r l pid l'

/-! ### States that are alike -/

/-- The states differ only in what the handler can change, and in what was printed. -/
structure Alike (l l' : LaunchState) : Prop where
  groups : l'.tables.groups = l.tables.groups
  directory : directory l'.tables = directory l.tables
  keys : l'.tables.procKeys = l.tables.procKeys
  forked : l'.forked = l.forked
  pgrp : l'.pgrp = l.pgrp
  statuses : l'.statuses = l.statuses

theorem Alike.refl (l : LaunchState) : Alike l l := ⟨rfl, rfl, rfl, rfl, rfl, rfl⟩

theorem Alike.trans {l m n : LaunchState} (h : Alike l m) (h' : Alike m n) : Alike l n :=
  ⟨h'.groups.trans h.groups, h'.directory.trans h.directory, h'.keys.trans h.keys,
    h'.forked.trans h.forked, h'.pgrp.trans h.pgrp, h'.statuses.trans h.statuses⟩

theorem alike_handle (l : LaunchState) (reaped : List (ℕ × Status)) :
    Alike l (l.handle reaped) := by
  obtain ⟨hgroups, -, hkeys⟩ := Jobs.sigchldHandler_frame l.tables reaped
  exact ⟨hgroups, directory_sigchldHandler l.tables reaped, hkeys, rfl, rfl, rfl⟩

/-- Registering a process: the keys depend on the keys only. -/
theorem procKeys_groupAddMember (t : JobTables) (pgid pid : ℕ) (name : Str) :
    (Jobs.groupAddMember t pgid pid name).procKeys =
      if t.procKeys.length < Jobs.maxProcs then t.procKeys ++ [(pgid, pid)] else t.procKeys := by
  have hlen : t.procKeys.length = t.procs.length := List.length_map _
  rw [hlen, Jobs.groupAddMember]
  split
  · simp [JobTables.procKeys, ProcEntry.key]
  · rfl

theorem groups_markGroupStopped (t : JobTables) (pgid : ℕ) :
    (Jobs.markGroupStopped t pgid).2.groups = Lib.updateFirst (ProcGroup.isFor pgid)
      (fun g => { g with stopped := true }) t.groups := by
  unfold Jobs.markGroupStopped
  split
  · rename_i hnone
    exact (Lib.updateFirst_of_find?_eq_none hnone).symm
  · rfl

theorem procKeys_markGroupStopped (t : JobTables) (pgid : ℕ) :
    (Jobs.markGroupStopped t pgid).2.procKeys = t.procKeys := by
  unfold Jobs.markGroupStopped
  split <;> rfl

theorem procKeys_groupRemove (t : JobTables) (pgid : ℕ) :
    (Jobs.groupRemove t pgid).procKeys = t.procKeys := by
  simp only [JobTables.procKeys, Jobs.groupRemove, List.map_map]
  refine List.map_congr_left fun e _ => ?_
  simp only [Function.comp_apply]
  split <;> rfl

/-- Bookkeeping calls keep states alike. -/
theorem Alike.book {l m : LaunchState} (h : Alike l m) (b : Book) :
    Alike (l.book b) (m.book b) := by
  have hpgrp : (m.book b).pgrp = (l.book b).pgrp := by
    simp only [LaunchState.book, h.pgrp]
  have hdirectory :
      Redirect.directory (m.book b).tables = Redirect.directory (l.book b).tables := by
    simp only [LaunchState.book, directory_bookTables, h.directory]
  suffices htables : (bookTables m.tables b).groups = (bookTables l.tables b).groups ∧
      (bookTables m.tables b).procKeys = (bookTables l.tables b).procKeys from
    ⟨htables.1, hdirectory, htables.2, h.forked, hpgrp, h.statuses⟩
  cases b with
  | groupAdd pgid name =>
    have hnext : m.tables.nextJobNumber = l.tables.nextJobNumber :=
      congrArg Directory.next h.directory
    simp only [bookTables, Jobs.groupAdd, h.groups, hnext]
    split
    · exact ⟨rfl, h.keys⟩
    · exact ⟨h.groups, h.keys⟩
  | groupAddMember pgid pid name =>
    refine ⟨?_, ?_⟩
    · simp only [bookTables, Jobs.groupAddMember]
      split <;> split <;> exact h.groups
    · simp only [bookTables, procKeys_groupAddMember, h.keys]
  | jobAdd pid name =>
    simp only [bookTables, Jobs.jobAdd]
    split <;> split <;> exact ⟨h.groups, h.keys⟩
  | jobAddMemberBg jobId pid =>
    simp only [bookTables, Jobs.jobAddMemberBg]
    split <;> split <;> exact ⟨h.groups, h.keys⟩
  | markGroupStopped pgid =>
    simp only [bookTables, Jobs.markGroupStopped, h.groups]
    split
    · exact ⟨h.groups, h.keys⟩
    · exact ⟨rfl, h.keys⟩
  | groupRemove pgid =>
    refine ⟨?_, ?_⟩
    · simp only [bookTables, Jobs.groupRemove, h.groups]
    · simp only [bookTables, procKeys_groupRemove, h.keys]
  | _ => exact ⟨h.groups, h.keys⟩

/-! ### Quiet programs -/

variable {α β : Type} {l : LaunchState} {pid : ℕ} {c : Call sh} {b : Book}

/-- A bookkeeping call. -/
theorem wlp_book (b : Book) {Q : ℤ → LaunchState → Prop}
    (hQ : ∀ z m l', Alike l m → (∀ w ∈ bookValue m.tables b, z = w) → l' = m.book b → Q z l') :
    wlp launchEffect (book (I := sh) b) Q l := by
  intro z l' hz
  obtain ⟨reaped, hvalue, hl'⟩ := hz
  exact hQ z _ l' (alike_handle l reaped) hvalue hl'

theorem wlp_note (b : Book) :
    wlp launchEffect (note b) (fun _ l' => Alike (l.book b) l') l := by
  refine wlp_bind.mpr (wlp_book b fun _ m l' hm _ hl' => ?_)
  rw [wlp_pure, hl']
  exact hm.book b

variable {p : Prog sh α} {l' : LaunchState}

/-- The bookkeeping calls that touch neither the tables of groups and processes nor the
process groups. -/
def Book.quiet : Book → Bool
  | .block | .restore | .giveTerminalTo _ | .reclaimTerminal | .printf _ | .perror _ => true
  | .jobAdd _ _ | .jobAddMemberBg _ _ => true
  | _ => false

theorem alike_book (hb : b.quiet = true) (l : LaunchState) : Alike l (l.book b) := by
  cases b with
  | block | restore | giveTerminalTo _ | reclaimTerminal | printf _ | perror _ =>
    exact ⟨rfl, rfl, rfl, rfl, rfl, rfl⟩
  | jobAdd pid name =>
    simp only [LaunchState.book, bookTables, Jobs.jobAdd]
    split <;> exact ⟨rfl, rfl, rfl, rfl, rfl, rfl⟩
  | jobAddMemberBg jobId pid =>
    simp only [LaunchState.book, bookTables, Jobs.jobAddMemberBg]
    split <;> exact ⟨rfl, rfl, rfl, rfl, rfl, rfl⟩
  | _ => cases hb

/-- The calls that leave the state alike. -/
def Quiet : Call sh → Prop
  | .book b => b.quiet = true
  | .wait _ untraced => untraced = false
  | _ => True

theorem alike_call {x : c.Ret} (hc : Quiet c)
    (hcall : launchEffect.call c l x l') : Alike l l' := by
  obtain ⟨reaped, hcall⟩ := hcall
  refine (alike_handle l reaped).trans ?_
  cases c with
  | book b =>
    obtain ⟨-, rfl⟩ := hcall
    exact alike_book hc _
  | wait pid untraced =>
    obtain rfl : untraced = false := hc
    obtain rfl := hcall
    exact Alike.refl _
  | _ =>
    obtain rfl := hcall
    exact Alike.refl _

theorem wlp_quiet (hp : p.Calls Quiet) (l : LaunchState) :
    wlp launchEffect p (fun _ l' => Alike l l') l :=
  wlp_of_calls (fun hc hcall h => h.trans (alike_call hc hcall)) hp (Alike.refl l)

theorem quiet_book (hb : b.quiet = true) : (book (I := sh) b).Calls Quiet :=
  ⟨hb, fun _ => trivial⟩

theorem quiet_note (hb : b.quiet = true) : (note b).Calls Quiet := calls_note hb

theorem quiet_of_minor (hc : Minor c) : Quiet c := by
  cases c with
  | book b =>
    cases b with
    | printf _ | perror _ => rfl
    | _ => exact hc.elim
  | wait _ _ => exact hc.elim
  | _ => trivial

theorem quiet_minor (hp : p.Calls Minor) : p.Calls Quiet := hp.mono fun _ => quiet_of_minor

theorem quiet_waitOpt (pid : Option ℕ) : (waitOpt pid).Calls Quiet :=
  calls_waitOpt (fun _ => rfl) pid

theorem quiet_undoStages (setups : List Setup) : (undoStages setups).Calls Quiet :=
  calls_undoStages (fun _ => trivial) (fun _ => rfl) setups

/-! ### Setting up the stages -/

/-- A launch with the tables `t` has forked the helpers `hs`, and nothing else. -/
structure Setting (t : JobTables) (hs : List ℕ) (l : LaunchState) : Prop where
  groups : l.tables.groups = t.groups
  directory : directory l.tables = directory t
  keys : l.tables.procKeys = t.procKeys
  statuses : l.statuses = []
  forked : l.forked.map Prod.fst = hs
  roles : ∀ p ∈ l.forked, ∀ i, p.2 ≠ Role.stage i
  nodup : hs.Nodup

theorem setting_start (t : JobTables) : Setting t [] { tables := t } :=
  ⟨rfl, rfl, rfl, rfl, rfl, fun _ h => (by cases h), List.nodup_nil⟩

variable {t : JobTables} {hs : List ℕ}

theorem Setting.alike (h : Setting t hs l) (hl : Alike l l') :
    Setting t hs l' := by
  refine ⟨hl.groups.trans h.groups, hl.directory.trans h.directory, hl.keys.trans h.keys,
    hl.statuses.trans h.statuses, ?_, ?_, h.nodup⟩
  · rw [hl.forked, h.forked]
  · rw [hl.forked]
    exact h.roles

theorem Setting.stage_not_mem (h : Setting t hs l) {i : ℕ} :
    (pid, Role.stage i) ∉ l.forked := fun hmem => h.roles _ hmem i rfl

theorem Setting.kept (h : Setting t hs l) (hp : p.Calls Quiet) :
    wlp launchEffect p (fun _ => Setting t hs) l :=
  wlp_mono (fun _ _ hl' => h.alike hl') (wlp_quiet hp l)

/-- Go past a quiet program. -/
theorem Setting.quiet {q : α → Prog sh β} {Q : β → LaunchState → Prop} (h : Setting t hs l)
    (hp : p.Calls Quiet) (hq : ∀ a l', Setting t hs l' → wlp launchEffect (q a) Q l') :
    wlp launchEffect (p >>= q) Q l := wlp_seq (h.kept hp) hq

/-- Minor calls and the forks of helpers. -/
theorem crew_setting (t : JobTables) : Crew launchEffect.logic (Setting t) := by
  refine crew_of_effect (fun hc hcall h => h.alike (alike_call (quiet_of_minor hc) hcall)) ?_ ?_
  · rintro r hs l pid _ hr ⟨hnew, rfl⟩ h
    refine ⟨h.groups, h.directory, h.keys, h.statuses, ?_, ?_, ?_⟩
    · simp [h.forked]
    · intro p hp i
      rcases List.mem_append.mp hp with hp | hp
      · exact h.roles p hp i
      · rw [List.mem_singleton.mp hp]
        exact hr i
    · rw [h.forked] at hnew
      exact List.nodup_append.mpr ⟨h.nodup, List.nodup_singleton pid, fun a ha b hb hab =>
        hnew (List.mem_singleton.mp hb ▸ hab ▸ ha)⟩
  · rintro r hs l _ rfl h
    exact h

/-! ### Forking the stages -/

/-- The stage processes, from stage `i` on. -/
def stagePids : ℕ → List (Option ℕ) → List (ℕ × Role)
  | _, [] => []
  | i, none :: pids => stagePids (i + 1) pids
  | i, some pid :: pids => (pid, .stage i) :: stagePids (i + 1) pids

theorem stagePids_append (i : ℕ) (pids : List (Option ℕ)) (pid : Option ℕ) :
    stagePids i (pids ++ [pid]) =
      stagePids i pids ++ (pid.map fun p => (p, Role.stage (i + pids.length))).toList := by
  induction pids generalizing i with
  | nil => cases pid <;> rfl
  | cons p pids ih =>
    have hlen : i + 1 + pids.length = i + (p :: pids).length := by
      rw [List.length_cons]
      omega
    cases p with
    | none =>
      change stagePids (i + 1) (pids ++ [pid]) = stagePids (i + 1) pids ++ _
      rw [ih, hlen]
    | some p =>
      change (p, Role.stage i) :: stagePids (i + 1) (pids ++ [pid]) =
        (p, Role.stage i) :: stagePids (i + 1) pids ++ _
      rw [ih, hlen, List.cons_append]

theorem mem_stagePids {i : ℕ} {pids : List (Option ℕ)} {p : ℕ × Role}
    (h : p ∈ stagePids i pids) : some p.1 ∈ pids ∧ ∃ j, p.2 = Role.stage j := by
  induction pids generalizing i with
  | nil => cases h
  | cons pid pids ih =>
    cases pid with
    | none =>
      obtain ⟨hmem, hrole⟩ := ih h
      exact ⟨List.mem_cons_of_mem _ hmem, hrole⟩
    | some pid =>
      rcases List.mem_cons.mp h with rfl | h
      · exact ⟨List.mem_cons_self, i, rfl⟩
      · obtain ⟨hmem, hrole⟩ := ih h
        exact ⟨List.mem_cons_of_mem _ hmem, hrole⟩

theorem map_fst_stagePids (i : ℕ) (pids : List (Option ℕ)) :
    (stagePids i pids).map Prod.fst = pids.flatMap Option.toList := by
  induction pids generalizing i with
  | nil => rfl
  | cons pid pids ih =>
    cases pid with
    | none => exact ih (i + 1)
    | some pid => exact congrArg (pid :: ·) (ih (i + 1))

/-- The process of stage 0 is the leader. -/
theorem leaderOf_eq_of_mem {pids : List (Option ℕ)}
    (h : (pid, Role.stage 0) ∈ stagePids 0 pids) : leaderOf pids = some pid := by
  have hlate : ∀ (pids : List (Option ℕ)) i, (pid, Role.stage 0) ∉ stagePids (i + 1) pids := by
    intro pids
    induction pids with
    | nil => exact fun _ h => (by cases h)
    | cons q pids ih =>
      intro i h
      cases q with
      | none => exact ih _ h
      | some q =>
        rcases List.mem_cons.mp h with h | h
        · cases h
        · exact ih _ h
  match pids, h with
  | none :: pids, h => exact absurd h (hlate pids 0)
  | some q :: pids, h =>
    rcases List.mem_cons.mp h with h | h
    · cases h
      rfl
    · exact absurd h (hlate pids 0)

theorem exists_of_leaderOf {leader : ℕ} {pids : List (Option ℕ)} (h : leaderOf pids = some leader) :
    ∃ rest, pids = some leader :: rest := by
  cases pids with
  | nil => cases h
  | cons p rest => exact ⟨rest, congrArg (· :: rest) h⟩

theorem leaderOf_append {pids : List (Option ℕ)} (h : pids ≠ []) (pid : Option ℕ) :
    leaderOf (pids ++ [pid]) = leaderOf pids := by
  cases pids with
  | nil => exact absurd rfl h
  | cons p pids => rfl

/-- A launch has forked the helpers `hs` and the stages `pids`, as far as they could be
had, and the stages are in the group of the first one. -/
structure Forking (t : JobTables) (hs : List ℕ) (pids : List (Option ℕ)) (l : LaunchState) :
    Prop where
  groups : l.tables.groups = t.groups
  directory : directory l.tables = directory t
  keys : l.tables.procKeys = t.procKeys
  statuses : l.statuses = []
  forked : ∃ helpers, helpers.map Prod.fst = hs ∧ (∀ p ∈ helpers, ∀ i, p.2 ≠ Role.stage i) ∧
    l.forked = helpers ++ stagePids 0 pids
  nodup : (l.forked.map Prod.fst).Nodup
  pgrp : ∀ pid, some pid ∈ pids → l.pgrp pid = leaderOf pids

theorem Setting.forking (h : Setting t hs l) : Forking t hs [] l := by
  refine ⟨h.groups, h.directory, h.keys, h.statuses, ⟨l.forked, h.forked, h.roles, ?_⟩, ?_, ?_⟩
  · exact (List.append_nil _).symm
  · rw [h.forked]
    exact h.nodup
  · exact fun _ hpid => (by cases hpid)

variable {pids : List (Option ℕ)}

theorem Forking.alike (h : Forking t hs pids l) (hl : Alike l l') :
    Forking t hs pids l' := by
  refine ⟨hl.groups.trans h.groups, hl.directory.trans h.directory, hl.keys.trans h.keys,
    hl.statuses.trans h.statuses, ?_, ?_, ?_⟩
  · rw [hl.forked]
    exact h.forked
  · rw [hl.forked]
    exact h.nodup
  · rw [hl.pgrp]
    exact h.pgrp

/-- Go past a quiet program. -/
theorem Forking.quiet {q : α → Prog sh β} {Q : β → LaunchState → Prop} (h : Forking t hs pids l)
    (hp : p.Calls Quiet) (hq : ∀ a l', Forking t hs pids l' → wlp launchEffect (q a) Q l') :
    wlp launchEffect (p >>= q) Q l :=
  wlp_seq (wlp_quiet hp l) fun a l' hl' => hq a l' (h.alike hl')

theorem Forking.leaderOf {leader : ℕ} (h : Forking t hs pids l)
    (hmem : (leader, Role.stage 0) ∈ l.forked) :
    Redirect.leaderOf pids = some leader := by
  obtain ⟨helpers, -, hroles, hforked⟩ := h.forked
  rw [hforked] at hmem
  rcases List.mem_append.mp hmem with hhelper | hstage
  · exact absurd rfl (hroles _ hhelper 0)
  · exact leaderOf_eq_of_mem hstage

/-- A stage that was not forked. -/
theorem Forking.skip (h : Forking t hs pids l) : Forking t hs (pids ++ [none]) l := by
  refine ⟨h.groups, h.directory, h.keys, h.statuses, ?_, h.nodup, fun pid hpid => ?_⟩
  · obtain ⟨helpers, hhelpers, hroles, hforked⟩ := h.forked
    refine ⟨helpers, hhelpers, hroles, ?_⟩
    rw [stagePids_append, hforked]
    exact (congrArg _ (List.append_nil _)).symm
  · have hmem : some pid ∈ pids := by simpa using hpid
    have hne : pids ≠ [] := List.ne_nil_of_mem hmem
    rw [leaderOf_append hne]
    exact h.pgrp pid hmem

/-- The group a stage joins is that of the first stage, itself if it is the first. -/
theorem bookPgrp_joinGroup (pgrp : ℕ → Option ℕ) (pid : ℕ) (hpid : pgrp pid = none)
    (pids : List (Option ℕ)) :
    bookPgrp pgrp (.setpgid pid (joinGroup pids.length pid pids)) pid =
      leaderOf (pids ++ [some pid]) := by
  cases pids with
  | nil => exact Function.update_self _ _ _
  | cons p pids =>
    rw [leaderOf_append (by simp)]
    have hjoin : joinGroup (p :: pids).length pid (p :: pids) = leaderOf (p :: pids) :=
      if_neg (by simp)
    rw [hjoin]
    cases leaderOf (p :: pids) with
    | none => exact hpid
    | some leader => exact Function.update_self _ _ _

theorem bookPgrp_setpgid_of_ne (pgrp : ℕ → Option ℕ) {q : ℕ} (hq : q ≠ pid)
    (pgid : Option ℕ) : bookPgrp pgrp (.setpgid pid pgid) q = pgrp q := by
  cases pgid with
  | none => rfl
  | some pgid => exact Function.update_of_ne hq _ _

/-- A stage that was forked and put into its group. -/
theorem Forking.join (h : Forking t hs pids l) (hnew : pid ∉ l.forked.map Prod.fst)
    (hl : Alike (({ l with
      forked := l.forked ++ [(pid, Role.stage pids.length)]
      pgrp := Function.update l.pgrp pid none } : LaunchState).book
        (.setpgid pid (joinGroup pids.length pid pids))) l') :
    Forking t hs (pids ++ [some pid]) l' := by
  obtain ⟨helpers, hhelpers, hroles, hforked⟩ := h.forked
  have hforked' : l'.forked = l.forked ++ [(pid, Role.stage pids.length)] := hl.forked
  refine ⟨hl.groups.trans h.groups, hl.directory.trans h.directory, hl.keys.trans h.keys,
    hl.statuses.trans h.statuses, ⟨helpers, hhelpers, hroles, ?_⟩, ?_, fun q hq => ?_⟩
  · rw [hforked', stagePids_append, hforked, List.append_assoc, Nat.zero_add]
    rfl
  · rw [hforked', List.map_append]
    refine List.nodup_append.mpr ⟨h.nodup, List.nodup_singleton pid, fun a ha b hb hab => ?_⟩
    obtain rfl : b = pid := List.mem_singleton.mp hb
    exact hnew (hab ▸ ha)
  · rw [hl.pgrp]
    change bookPgrp (Function.update l.pgrp pid none) _ q = _
    rcases List.mem_append.mp hq with hold | hlast
    -- A stage forked earlier stays where it is.
    · have hne : q ≠ pid := by
        rintro rfl
        refine hnew ?_
        rw [hforked, List.map_append, map_fst_stagePids]
        exact List.mem_append_right _ (List.mem_flatMap.mpr ⟨_, hold, List.mem_singleton_self _⟩)
      rw [bookPgrp_setpgid_of_ne _ hne, Function.update_of_ne hne, h.pgrp q hold,
        leaderOf_append (List.ne_nil_of_mem hold)]
    · obtain rfl : q = pid := Option.some.inj (List.mem_singleton.mp hlast)
      exact bookPgrp_joinGroup _ _ (Function.update_self _ _ _) _

theorem wlp_setpgid (pid : ℕ) (pgid : Option ℕ) :
    wlp launchEffect (setpgid pid pgid) (fun _ l' => Alike (l.book (.setpgid pid pgid)) l') l := by
  refine wlp_bind.mpr (wlp_book _ fun rc m l' hm _ hl' => ?_)
  have hbook : Alike (l.book (.setpgid pid pgid)) l' := hl' ▸ hm.book _
  split
  · exact wlp_mono (fun _ _ h => hbook.trans h) (wlp_quiet (quiet_minor (minor_perror _)) l')
  · exact hbook

/-- The loop that forks the stages. -/
theorem forkStages_forking {child : StageProg} {zs : List (CommandStage × Setup)}
    (h : Setting t hs l) {Q : List (Option ℕ) → LaunchState → Prop}
    (hQ : ∀ pids l', pids.length = zs.length → Forking t hs pids l' → Q pids l') :
    wlp launchEffect (forkStages child zs 0 []) Q l := by
  refine wlp_forkStages (fun h => h.skip) ?_ ?_ h.forking rfl fun pids l hlen h => ?_
  · rintro pids pid l _ h ⟨hnew, rfl⟩
    exact wlp_mono (fun _ l' hl' => h.join hnew hl') (wlp_setpgid _ _)
  · rintro pids l _ h rfl
    exact wlp_mono (fun _ l' hl' => h.alike hl') (wlp_quiet (quiet_minor (minor_perror _)) _)
  · exact hQ pids l (by simpa using hlen) h

/-! ### Pipelines -/

section Pipelines

variable {env : Env} {stages : List CommandStage} {Q : ℤ → LaunchState → Prop}

theorem length_zip_setups {setups : List Setup} (hsetups : setups.length = stages.length)
    (hpids : pids.length = (stages.zip setups).length) : pids.length = stages.length := by
  rw [hpids, List.length_zip, hsetups, min_self]

/-- A launch that is aborted has forked no stage; otherwise it goes on with a set-up for
every stage. -/
theorem preparePipeline_setting {launch : List (ℕ × ℕ) → List Setup → Prog sh ℤ}
    (hlaunch : ∀ pipefds setups l, setups.length = stages.length →
      Setting t (helperPids setups) l → wlp launchEffect (launch pipefds setups) Q l)
    (habort : ∀ hs z l, Setting t hs l → Q z l) :
    wlp launchEffect (preparePipeline env stages launch) Q { tables := t } :=
  (crew_setting t).preparePipeline (setting_start t) hlaunch
    (fun setups _ h => h.kept (quiet_undoStages setups)) habort

/-- A pipeline in the foreground is aborted, or all its stages have been forked. -/
theorem executePipeline_forking (hstages : 2 ≤ stages.length)
    (hparent : ∀ pipefds setups pids l, setups.length = stages.length →
      pids.length = stages.length → Forking t (helperPids setups) pids l →
      wlp launchEffect (pipelineParent stages pipefds setups pids) Q l)
    (habort : ∀ hs z l, Setting t hs l → Q z l) :
    wlp launchEffect (executePipeline env stages) Q { tables := t } := by
  match stages, hstages with
  | a :: b :: rest, _ =>
    refine preparePipeline_setting (fun pipefds setups l hsetups h => ?_) habort
    refine h.quiet (quiet_note rfl) fun _ l h => ?_
    refine wlp_bind.mpr (forkStages_forking h fun pids l hpids h => ?_)
    exact hparent pipefds setups pids l hsetups (length_zip_setups hsetups hpids) h

/-- The same in the background. -/
theorem executeBackground_forking (hstages : 2 ≤ stages.length)
    (hparent : ∀ pipefds setups sync pids l, setups.length = stages.length →
      pids.length = stages.length → Forking t (helperPids setups) pids l →
      wlp launchEffect (backgroundParent stages pipefds setups sync pids) Q l)
    (habort : ∀ hs z l, Setting t hs l → Q z l) :
    wlp launchEffect (executeBackground env stages) Q { tables := t } := by
  match stages, hstages with
  | a :: b :: rest, _ =>
    refine preparePipeline_setting (fun pipefds setups l hsetups h => ?_) habort
    refine h.quiet (quiet_note rfl) fun _ l h => ?_
    refine h.quiet (quiet_minor (minor_pipe _)) fun sync l h => ?_
    refine wlp_bind.mpr (forkStages_forking h fun pids l hpids h => ?_)
    exact hparent pipefds setups sync pids l hsetups (length_zip_setups hsetups hpids) h

end Pipelines

/-! ### A launch in which every call succeeds -/

/-- The result of a call, and the state after it; `status` is what the waits return. -/
def reply (status : ℕ → Status) : (c : Call sh) → LaunchState → Option (c.Ret × LaunchState)
  | .pipe _, l => some (some (0, 0), l)
  | .openFile _, l => some (some 0, l)
  | .wait pid true, l => some (status pid, l.record pid (status pid))
  | .wait _ false, l => some (Status.exited, l)
  | .exit _, _ => none
  | .book b, l => some ((bookValue l.tables b).getD 0, l.book b)
  | .close _, l | .dup2 _ _, l | .readByte _, l | .feed _ _, l | .drain _, l | .exec _, l =>
    some ((), l)

/-- The launch without a run of the handler; the processes are numbered from 100 on. -/
def play (status : ℕ → Status) : Prog sh α → LaunchState → Option (α × LaunchState)
  | .pure a, l => some (a, l)
  | .call c k, l => (reply status c l).bind fun x => play status (k x.1) x.2
  | .fork r k, l =>
    let pid := 100 + l.forked.length
    if pid ∈ l.forked.map Prod.fst then none
    else play status (k (.parent pid)) { l with
      forked := l.forked ++ [(pid, r)]
      pgrp := Function.update l.pgrp pid none }

theorem launchCall_of_reply {status : ℕ → Status} {x : c.Ret}
    (h : reply status c l = some (x, l')) : launchCall c l x l' := by
  cases c with
  | wait pid untraced =>
    cases untraced <;>
    · cases h
      rfl
  | exit n => cases h
  | book b =>
    cases h
    refine ⟨fun w hw => ?_, rfl⟩
    rw [Option.mem_def.mp hw]
    rfl
  | _ =>
    cases h
    rfl

theorem exec_of_play {status : ℕ → Status} {a : α} (h : play status p l = some (a, l')) :
    Exec launchEffect p l a l' := by
  induction p generalizing l with
  | pure b =>
    cases h
    exact .pure
  | call c k ih =>
    obtain ⟨x, hx, hrest⟩ := Option.bind_eq_some_iff.mp h
    exact .call ⟨[], launchCall_of_reply hx⟩ (ih _ hrest)
  | fork r k ih =>
    unfold play at h
    dsimp only at h
    split at h
    · cases h
    · rename_i hnew
      exact .parent ⟨hnew, rfl⟩ (ih _ h)

end Redirect
end RuShell
