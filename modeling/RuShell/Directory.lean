import RuShell.Jobs

/-!
# The directory of the job tables

`group_lookup` returns with the group of a job the name of the member that was registered
first under its process group id.  The names depend on less than the tables: neither the
handler nor stopping, resuming, removing and listing jobs make a difference.  What is left
is the directory.

## Main definitions

* `Directory` — the numbers and ids of the groups, and the names of the processes.
* `Directory.addGroup`, `Directory.addName` — what `group_add` and `group_add_member` do.

## Main results

* `directory_sigchldHandler`, `directory_activitiesPrint` — what does not change it.
* `groupLookup_eq_some` — what a lookup finds is in the directory.
-/

namespace RuShell
namespace Redirect

open Lib.Posix
open RuShell.Jobs (JobTables ProcEntry ProcGroup)

/-! ### The directory -/

/-- What the names of jobs depend on. -/
@[ext] structure Directory where
  /-- The number and the process group id of every group, active or not. -/
  groups : List (ℤ × ℕ)
  next : ℤ
  /-- The process group id and the name of every process. -/
  names : List (ℕ × Str)

/-- The directory of the tables. -/
def directory (t : JobTables) : Directory where
  groups := t.groups.map fun g => (g.jobId, g.pgid)
  next := t.nextJobNumber
  names := t.procs.map fun e => (e.pgid, e.cmdName)

namespace Directory

variable {d : Directory} {pgid : ℕ}

/-- What `group_add` does to it. -/
def addGroup (d : Directory) (pgid : ℕ) : Directory :=
  if d.groups.length < Jobs.maxJobs then
    { d with groups := d.groups ++ [(d.next, pgid)], next := d.next + 1 }
  else d

/-- What `group_add_member` does to it. -/
def addName (pgid : ℕ) (d : Directory) (name : Str) : Directory :=
  if d.names.length < Jobs.maxProcs then
    { d with names := d.names ++ [(pgid, Jobs.strncpy 64 name)] }
  else d

/-- Several members, in order. -/
def addNames (d : Directory) (pgid : ℕ) (names : List Str) : Directory :=
  names.foldl (addName pgid) d

/-- The name that is found for a group. -/
def firstName (d : Directory) (pgid : ℕ) : Option Str :=
  (d.names.find? fun e => e.1 == pgid).map Prod.snd

@[simp] theorem addNames_nil (d : Directory) (pgid : ℕ) : d.addNames pgid [] = d := rfl

@[simp] theorem addNames_cons (d : Directory) (pgid : ℕ) (name : Str) (names : List Str) :
    d.addNames pgid (name :: names) = (d.addName pgid name).addNames pgid names := rfl

theorem addNames_append (d : Directory) (pgid : ℕ) (names names' : List Str) :
    d.addNames pgid (names ++ names') = (d.addNames pgid names).addNames pgid names' :=
  List.foldl_append

@[simp] theorem addGroup_names (d : Directory) (pgid : ℕ) : (d.addGroup pgid).names = d.names := by
  unfold addGroup
  split <;> rfl

@[simp] theorem addName_groups (d : Directory) (pgid : ℕ) (name : Str) :
    (d.addName pgid name).groups = d.groups := by
  unfold addName
  split <;> rfl

@[simp] theorem addName_next (d : Directory) (pgid : ℕ) (name : Str) :
    (d.addName pgid name).next = d.next := by
  unfold addName
  split <;> rfl

@[simp] theorem addNames_groups (d : Directory) (pgid : ℕ) (names : List Str) :
    (d.addNames pgid names).groups = d.groups := by
  induction names generalizing d with
  | nil => rfl
  | cons name names ih => rw [addNames_cons, ih, addName_groups]

@[simp] theorem addNames_next (d : Directory) (pgid : ℕ) (names : List Str) :
    (d.addNames pgid names).next = d.next := by
  induction names generalizing d with
  | nil => rfl
  | cons name names ih => rw [addNames_cons, ih, addName_next]

theorem names_le_addName (d : Directory) (pgid : ℕ) (name : Str) :
    d.names <+: (d.addName pgid name).names := by
  unfold addName
  split
  · exact List.prefix_append _ _
  · exact List.prefix_refl _

theorem names_le_addNames (d : Directory) (pgid : ℕ) (names : List Str) :
    d.names <+: (d.addNames pgid names).names := by
  induction names generalizing d with
  | nil => exact List.prefix_refl _
  | cons name names ih => exact (names_le_addName d pgid name).trans (ih _)

/-- Groups and names are independent of each other. -/
theorem addName_addGroup (d : Directory) (pgid g : ℕ) (name : Str) :
    (d.addName pgid name).addGroup g = (d.addGroup g).addName pgid name := by
  by_cases hnames : d.names.length < Jobs.maxProcs <;>
    by_cases hgroups : d.groups.length < Jobs.maxJobs <;>
    simp [addName, addGroup, hnames, hgroups]

theorem addNames_addGroup (d : Directory) (pgid g : ℕ) (names : List Str) :
    (d.addNames pgid names).addGroup g = (d.addGroup g).addNames pgid names := by
  induction names generalizing d with
  | nil => rfl
  | cons name names ih => rw [addNames_cons, ih, addName_addGroup, addNames_cons]

/-- A name that is found stays the one that is found. -/
theorem firstName_of_le {d' : Directory} (hle : d.names <+: d'.names) {name : Str}
    (h : d.firstName pgid = some name) : d'.firstName pgid = some name := by
  obtain ⟨more, hmore⟩ := hle
  obtain ⟨e, he, rfl⟩ := Option.map_eq_some_iff.mp h
  rw [firstName, ← hmore, List.find?_append, he]
  rfl

/-- The first name of a new group. -/
theorem firstName_addName (hnew : d.firstName pgid = none) (hroom : d.names.length < Jobs.maxProcs)
    (name : Str) : (d.addName pgid name).firstName pgid = some (Jobs.strncpy 64 name) := by
  have hnone : d.names.find? (fun e => e.1 == pgid) = none := Option.map_eq_none_iff.mp hnew
  rw [addName, if_pos hroom, firstName, List.find?_append, hnone]
  simp

theorem firstName_addNames (hnew : d.firstName pgid = none)
    (hroom : d.names.length < Jobs.maxProcs) (name : Str) (names : List Str) :
    (d.addNames pgid (name :: names)).firstName pgid = some (Jobs.strncpy 64 name) :=
  firstName_of_le (names_le_addNames (d.addName pgid name) pgid names)
    (firstName_addName hnew hroom name)

end Directory

/-! ### What the operations do to the directory -/

section Tables

variable (t : JobTables)

theorem directory_groupAdd (pgid : ℕ) (name : Str) :
    directory (Jobs.groupAdd t pgid name) = (directory t).addGroup pgid := by
  have hlen : (directory t).groups.length = t.groups.length := List.length_map _
  rw [Jobs.groupAdd, Directory.addGroup, hlen]
  split
  · simp [directory]
  · rfl

theorem directory_groupAddMember (pgid pid : ℕ) (name : Str) :
    directory (Jobs.groupAddMember t pgid pid name) = (directory t).addName pgid name := by
  have hlen : (directory t).names.length = t.procs.length := List.length_map _
  rw [Jobs.groupAddMember, Directory.addName, hlen]
  split
  · simp [directory]
  · rfl

theorem directory_jobAdd (pid : ℕ) (name : Str) :
    directory (Jobs.jobAdd t pid name).2 = directory t := by
  unfold Jobs.jobAdd
  split <;> rfl

theorem directory_jobAddMemberBg (jobId : ℤ) (pid : ℕ) :
    directory (Jobs.jobAddMemberBg t jobId pid) = directory t := by
  unfold Jobs.jobAddMemberBg
  split <;> rfl

/-- Operations that change the flags of group entries only. -/
theorem directory_updateFirst {t' : JobTables} {p : ProcGroup → Bool} {f : ProcGroup → ProcGroup}
    (hgroups : t'.groups = Lib.updateFirst p f t.groups)
    (hf : ∀ g, (f g).jobId = g.jobId ∧ (f g).pgid = g.pgid)
    (hnext : t'.nextJobNumber = t.nextJobNumber)
    (hnames : (directory t').names = (directory t).names) : directory t' = directory t := by
  refine Directory.ext ?_ hnext hnames
  change t'.groups.map _ = t.groups.map _
  rw [hgroups]
  refine Lib.map_updateFirst fun g _ => ?_
  rw [(hf g).1, (hf g).2]

theorem directory_markGroupStopped (pgid : ℕ) :
    directory (Jobs.markGroupStopped t pgid).2 = directory t := by
  unfold Jobs.markGroupStopped
  split
  · rfl
  · exact directory_updateFirst t rfl (fun _ => ⟨rfl, rfl⟩) rfl rfl

theorem directory_markGroupRunning (pgid : ℕ) :
    directory (Jobs.markGroupRunning t pgid) = directory t :=
  directory_updateFirst t rfl (fun _ => ⟨rfl, rfl⟩) rfl rfl

theorem directory_groupRemove (pgid : ℕ) : directory (Jobs.groupRemove t pgid) = directory t := by
  refine directory_updateFirst t rfl (fun _ => ⟨rfl, rfl⟩) rfl ?_
  simp only [directory, Jobs.groupRemove, List.map_map]
  refine List.map_congr_left fun e _ => ?_
  simp only [Function.comp_apply]
  split <;> rfl

theorem directory_sigchldHandler (reaped : List (ℕ × Status)) :
    directory (Jobs.sigchldHandler t reaped) = directory t := by
  induction reaped generalizing t with
  | nil => rfl
  | cons c reaped ih =>
    obtain ⟨hgroups, hnext, hprocs⟩ := Jobs.handleChild_frame t c.1 c.2
    refine (ih (Jobs.handleChild t c.1 c.2)).trans (Directory.ext ?_ hnext ?_)
    · simp only [directory, hgroups]
    · simp only [directory, hprocs, Jobs.markProcExited]
      exact Lib.map_updateFirst fun _ _ => rfl

theorem activitiesLoop_names (state : ℕ → Option Char) (groups : List ProcGroup)
    (procs : List ProcEntry) :
    ((Jobs.activitiesLoop state groups procs).2.2.map fun e => (e.pgid, e.cmdName)) =
      procs.map fun e => (e.pgid, e.cmdName) := by
  have hmember : ∀ g e, ((Jobs.activitiesMember state g e).2.pgid,
      (Jobs.activitiesMember state g e).2.cmdName) = (e.pgid, e.cmdName) := by
    intro g e
    unfold Jobs.activitiesMember
    split
    · rfl
    · split <;> rfl
  induction groups generalizing procs with
  | nil => rfl
  | cons g groups ih =>
    simp only [Jobs.activitiesLoop]
    rw [ih]
    unfold Jobs.activitiesGroup
    split
    · rfl
    · split
      · simp only [List.map_map]
        exact List.map_congr_left fun e _ => hmember g e
      · rfl

theorem directory_activitiesPrint (state : ℕ → Option Char) :
    directory (Jobs.activitiesPrint state t).2 = directory t := by
  refine Directory.ext ?_ rfl (activitiesLoop_names state _ _)
  change (Jobs.activitiesLoop state t.groups t.procs).2.1.map _ = t.groups.map _
  rw [Jobs.activitiesLoop_groups, List.map_map]
  refine List.map_congr_left fun g _ => ?_
  simp only [Function.comp_apply, Jobs.sweep]
  split <;> rfl

/-- What a lookup finds. -/
theorem groupLookup_eq_some {jobId : ℤ} {n pgid : ℕ} {stopped : Bool} {name : Str}
    (h : Jobs.groupLookup t jobId n = some (pgid, stopped, name)) :
    (jobId, pgid) ∈ (directory t).groups ∧
      name = (((directory t).firstName pgid).map (Jobs.strncpy n)).getD [] := by
  unfold Jobs.groupLookup at h
  split at h
  · cases h
  · rename_i g hg
    simp only [Option.some.injEq, Prod.mk.injEq] at h
    obtain ⟨rfl, -, rfl⟩ := h
    have htest := List.find?_some hg
    simp only [Bool.and_eq_true, beq_iff_eq] at htest
    refine ⟨List.mem_map.mpr ⟨g, List.mem_of_find?_eq_some hg, by rw [htest.2]⟩, ?_⟩
    rw [Directory.firstName, directory, List.find?_map, Option.map_map]
    cases hp : t.procs.find? (fun e => e.pgid == g.pgid) with
    | none =>
      have hp' : t.procs.find? ((fun e : ℕ × Str => e.1 == g.pgid) ∘
          fun e : ProcEntry => (e.pgid, e.cmdName)) = none := hp
      rw [hp']
      rfl
    | some e =>
      have hp' : t.procs.find? ((fun e : ℕ × Str => e.1 == g.pgid) ∘
          fun e : ProcEntry => (e.pgid, e.cmdName)) = some e := hp
      rw [hp']
      rfl

end Tables

end Redirect
end RuShell
