import RuShell.Jobs

/-!
# What `activities` lists

`activities_print` of `c-shell/src/jobs.c` prints the groups and their processes and
cleans up the tables in the same pass.  The loop looks at entries that earlier rounds
may have changed.  But all that a round changes is the flag of processes that are not
there any more, and no test in a later round lets such a process through: the whole
loop says what a single look at the tables would.

## Main definitions

* `listing` — what is to be printed, in one look at the tables.
* `sweep`, `dropMember` — what becomes of a group and of a process.
* `Drops` — changes that later rounds do not notice.

## Main results

* `activitiesLoop_text`, `activitiesLoop_procs` — the loop, in one look.
* `activities_exact` — **`activities` lists exactly the live processes, drops only dead
  ones, and says the same when it is called again**.
-/

namespace RuShell
namespace Jobs

variable {state : ℕ → Option Char}

/-! ### One look at the tables -/

/-- The process is a tracked member of the group and still there. -/
def listed (state : ℕ → Option Char) (g : ProcGroup) (e : ProcEntry) : Bool :=
  e.pgid == g.pgid && e.active && isLive (state e.pid)

/-- The group is active and has a process to list. -/
def printed (state : ℕ → Option Char) (procs : List ProcEntry) (g : ProcGroup) : Bool :=
  g.active && hasLive state procs g.pgid

/-- The line of a group. -/
def header (g : ProcGroup) : Str :=
  '[' :: (toString g.jobId).toList ++ "] pgid ".toList ++ (toString g.pgid).toList ++ ['\n']

/-- The line of a process. -/
def memberLine (state : ℕ → Option Char) (g : ProcGroup) (e : ProcEntry) : Str :=
  "  ".toList ++ (toString e.pid).toList ++ [' '] ++ e.cmdName ++ [' '] ++
    (if state e.pid = some 'T' ∨ g.stopped then "Stopped" else "Running").toList ++ ['\n']

/-- The active groups with a live member, in the order of the table, each followed by
its live members, in the order of theirs. -/
def listing (state : ℕ → Option Char) (groups : List ProcGroup) (procs : List ProcEntry) : Str :=
  (groups.filter (printed state procs)).flatMap fun g =>
    header g ++ (procs.filter (listed state g)).flatMap (memberLine state g)

/-- A process that is not there any more is dropped with its group's listing. -/
def dropMember (state : ℕ → Option Char) (groups : List ProcGroup) (procs : List ProcEntry)
    (e : ProcEntry) : ProcEntry :=
  if e.active && !isLive (state e.pid) &&
      groups.any (fun g => printed state procs g && g.pgid == e.pgid) then
    { e with active := false }
  else e

/-! ### Changes that no test notices -/

/-- The change drops dead processes and nothing else. -/
def Drops (state : ℕ → Option Char) (d : ProcEntry → ProcEntry) : Prop :=
  ∀ e, d e = e ∨ (isLive (state e.pid) = false ∧ d e = { e with active := false })

theorem drops_dropMember (state : ℕ → Option Char) (groups : List ProcGroup)
    (procs : List ProcEntry) :
    Drops state (dropMember state groups procs) := by
  intro e
  unfold dropMember
  split
  · rename_i h
    simp only [Bool.and_eq_true, Bool.not_eq_true'] at h
    exact Or.inr ⟨h.1.2, rfl⟩
  · exact Or.inl rfl

namespace Drops

variable {d : ProcEntry → ProcEntry} (hd : Drops state d)
include hd

theorem listed_eq (g : ProcGroup) (e : ProcEntry) : listed state g (d e) = listed state g e := by
  rcases hd e with heq | ⟨hdead, heq⟩
  · rw [heq]
  · rw [heq]
    simp [listed, hdead]

theorem eq_of_listed {g : ProcGroup} {e : ProcEntry} (h : listed state g e = true) : d e = e := by
  rcases hd e with heq | ⟨hdead, -⟩
  · exact heq
  · simp [listed, hdead] at h

theorem filter_listed (g : ProcGroup) (procs : List ProcEntry) :
    (procs.map d).filter (listed state g) = procs.filter (listed state g) := by
  rw [List.filter_map]
  have htest : (listed state g) ∘ d = listed state g := by
    funext e
    exact hd.listed_eq g e
  rw [htest]
  apply List.map_congr_left (g := id) _ |>.trans (List.map_id _)
  intro e he
  exact hd.eq_of_listed (List.of_mem_filter he)

theorem hasLive_eq (procs : List ProcEntry) (pgid : ℕ) :
    hasLive state (procs.map d) pgid = hasLive state procs pgid := by
  unfold hasLive
  rw [List.any_map]
  congr 1
  funext e
  exact hd.listed_eq ⟨pgid, 0, [], true, false⟩ e

theorem printed_eq (procs : List ProcEntry) :
    printed state (procs.map d) = printed state procs := by
  funext g
  rw [printed, printed, hd.hasLive_eq]

theorem listing_eq (groups : List ProcGroup) (procs : List ProcEntry) :
    listing state groups (procs.map d) = listing state groups procs := by
  unfold listing
  rw [hd.printed_eq]
  congr 1
  funext g
  rw [hd.filter_listed]

theorem dropMember_eq (groups : List ProcGroup) (procs : List ProcEntry) :
    dropMember state groups (procs.map d) = dropMember state groups procs := by
  funext e
  unfold dropMember
  rw [hd.printed_eq]

end Drops

/-! ### The loop -/

theorem activitiesMember_fst (g : ProcGroup) (e : ProcEntry) :
    (activitiesMember state g e).1 = if listed state g e then memberLine state g e else [] := by
  unfold activitiesMember listed
  by_cases hskip : e.pgid ≠ g.pgid ∨ e.active = false
  · rw [if_pos hskip, if_neg]
    rcases hskip with hpgid | hactive
    · simp [hpgid]
    · simp [hactive]
  · obtain ⟨hpgid, hactive⟩ : e.pgid = g.pgid ∧ e.active = true := by simpa using hskip
    rw [if_neg hskip]
    cases hlive : isLive (state e.pid) with
    | false => simp
    | true =>
      simp only [hpgid, hactive, beq_self_eq_true, Bool.and_self, if_true, memberLine]

theorem activitiesMember_snd {g : ProcGroup} {procs : List ProcEntry}
    (hg : printed state procs g = true) (e : ProcEntry) :
    (activitiesMember state g e).2 = dropMember state [g] procs e := by
  unfold activitiesMember dropMember
  by_cases hskip : e.pgid ≠ g.pgid ∨ e.active = false
  · rw [if_pos hskip, if_neg]
    rcases hskip with hpgid | hactive
    · simp [hpgid.symm]
    · simp [hactive]
  · obtain ⟨hpgid, hactive⟩ : e.pgid = g.pgid ∧ e.active = true := by simpa using hskip
    rw [if_neg hskip]
    cases hlive : isLive (state e.pid) with
    | false => simp [hpgid, hactive, hg]
    | true => simp

/-- The lines of the members, in the order of the table. -/
theorem flatten_members (g : ProcGroup) (procs : List ProcEntry) :
    ((procs.map (activitiesMember state g)).map Prod.fst).flatten =
      (procs.filter (listed state g)).flatMap (memberLine state g) := by
  induction procs with
  | nil => rfl
  | cons e procs ih =>
    rw [List.map_cons, List.map_cons, List.flatten_cons, ih, activitiesMember_fst]
    cases he : listed state g e with
    | false => rw [List.filter_cons_of_neg (by simp [he])]; rfl
    | true => rw [List.filter_cons_of_pos he, List.flatMap_cons]; rfl

/-- One round: its text, and the table of processes it leaves. -/
theorem activitiesGroup_eq (state : ℕ → Option Char) (g : ProcGroup) (procs : List ProcEntry) :
    (activitiesGroup state g procs).1 = listing state [g] procs ∧
      (activitiesGroup state g procs).2.2 = procs.map (dropMember state [g] procs) := by
  have hsame : printed state procs g = false → procs = procs.map (dropMember state [g] procs) := by
    intro hg
    refine ((List.map_congr_left fun e _ => ?_).trans (List.map_id procs)).symm
    simp [dropMember, hg]
  unfold activitiesGroup listing
  by_cases hactive : g.active = false
  · have hg : printed state procs g = false := by simp [printed, hactive]
    rw [if_pos hactive, List.filter_cons_of_neg (by simp [hg])]
    exact ⟨rfl, hsame hg⟩
  · rw [if_neg hactive]
    by_cases hlive : hasLive state procs g.pgid = true
    · have hg : printed state procs g = true := by simp [printed, hactive, hlive]
      rw [if_pos hlive, List.filter_cons_of_pos hg, List.filter_nil, List.flatMap_singleton]
      refine ⟨?_, ?_⟩
      · rw [← flatten_members]
        rfl
      · change (procs.map (activitiesMember state g)).map Prod.snd = _
        rw [List.map_map]
        exact List.map_congr_left fun e _ => activitiesMember_snd hg e
    · have hg : printed state procs g = false := by simp [printed, hlive]
      rw [if_neg hlive, List.filter_cons_of_neg (by simp [hg])]
      exact ⟨rfl, hsame hg⟩

/-- **What the loop prints** is what one look at the tables gives. -/
theorem activitiesLoop_text (groups : List ProcGroup) (procs : List ProcEntry) :
    (activitiesLoop state groups procs).1 = listing state groups procs := by
  induction groups generalizing procs with
  | nil => rfl
  | cons g groups ih =>
    obtain ⟨htext, hprocs⟩ := activitiesGroup_eq state g procs
    simp only [activitiesLoop]
    rw [ih, htext, hprocs, (drops_dropMember _ _ _).listing_eq]
    unfold listing
    rw [← List.flatMap_append, ← List.filter_append, List.singleton_append]

/-- Dropping for one group and then for others. -/
theorem dropMember_cons (g : ProcGroup) (groups : List ProcGroup) (procs : List ProcEntry)
    (e : ProcEntry) :
    dropMember state groups procs (dropMember state [g] procs e) =
      dropMember state (g :: groups) procs e := by
  unfold dropMember
  rw [List.any_cons, List.any_cons, List.any_nil, Bool.or_false]
  cases printed state procs g && g.pgid == e.pgid with
  | false => simp
  | true => cases hdead : e.active && !isLive (state e.pid) <;> simp [hdead]

/-- **What the loop drops** are dead members of the groups that are printed. -/
theorem activitiesLoop_procs (groups : List ProcGroup) (procs : List ProcEntry) :
    (activitiesLoop state groups procs).2.2 = procs.map (dropMember state groups procs) := by
  induction groups generalizing procs with
  | nil =>
    refine ((List.map_congr_left fun e _ => ?_).trans (List.map_id procs)).symm
    simp [dropMember]
  | cons g groups ih =>
    obtain ⟨-, hprocs⟩ := activitiesGroup_eq state g procs
    simp only [activitiesLoop]
    rw [ih, hprocs, (drops_dropMember _ _ _).dropMember_eq, List.map_map]
    exact List.map_congr_left fun e _ => dropMember_cons g groups procs e

/-- `activities_print`, in one look at the tables. -/
theorem activitiesPrint_eq (state : ℕ → Option Char) (t : JobTables) :
    activitiesPrint state t = (listing state t.groups t.procs,
      { t with
        groups := t.groups.map (sweep state t.procs)
        procs := t.procs.map (dropMember state t.groups t.procs) }) := by
  simp only [activitiesPrint]
  rw [activitiesLoop_text, activitiesLoop_groups, activitiesLoop_procs]

/-! ### Calling it again -/

section Again

variable (procs : List ProcEntry)

theorem printed_sweep (g : ProcGroup) :
    printed state procs (sweep state procs g) = printed state procs g := by
  unfold sweep printed
  cases hactive : g.active <;> cases hlive : hasLive state procs g.pgid <;> simp [hactive, hlive]

theorem sweep_of_printed {g : ProcGroup} (h : printed state procs g = true) :
    sweep state procs g = g := by
  simp only [printed, Bool.and_eq_true] at h
  simp [sweep, h.2]

theorem sweep_sweep (g : ProcGroup) :
    sweep state procs (sweep state procs g) = sweep state procs g := by
  unfold sweep
  cases hactive : g.active <;> cases hlive : hasLive state procs g.pgid <;> simp [hactive, hlive]

theorem filter_printed_sweep (groups : List ProcGroup) :
    (groups.map (sweep state procs)).filter (printed state procs) =
      groups.filter (printed state procs) := by
  rw [List.filter_map]
  have htest : (printed state procs) ∘ (sweep state procs) = printed state procs := by
    funext g
    exact printed_sweep procs g
  rw [htest]
  refine (List.map_congr_left fun g hg => ?_).trans (List.map_id _)
  exact sweep_of_printed procs (List.of_mem_filter hg)

theorem any_printed_sweep (groups : List ProcGroup) (pgid : ℕ) :
    (groups.map (sweep state procs)).any (fun g => printed state procs g && g.pgid == pgid) =
      groups.any fun g => printed state procs g && g.pgid == pgid := by
  rw [List.any_map]
  congr 1
  funext g
  have hpgid : (sweep state procs g).pgid = g.pgid := by
    unfold sweep
    split <;> rfl
  simp only [Function.comp_apply, printed_sweep, hpgid]

theorem dropMember_again (groups : List ProcGroup) (e : ProcEntry) :
    dropMember state (groups.map (sweep state procs)) procs (dropMember state groups procs e) =
      dropMember state groups procs e := by
  unfold dropMember
  split
  · simp
  · rename_i h
    rw [any_printed_sweep, if_neg h]

end Again

/-- The second call finds nothing to do. -/
theorem activitiesPrint_again (state : ℕ → Option Char) (t : JobTables) :
    activitiesPrint state (activitiesPrint state t).2 = activitiesPrint state t := by
  have hdrops := drops_dropMember state t.groups t.procs
  have hsweep : sweep state (t.procs.map (dropMember state t.groups t.procs)) =
      sweep state t.procs := by
    funext g
    unfold sweep
    rw [hdrops.hasLive_eq]
  rw [activitiesPrint_eq, activitiesPrint_eq]
  simp only
  rw [hdrops.listing_eq, hdrops.dropMember_eq, hsweep, List.map_map, List.map_map]
  have htext : listing state (t.groups.map (sweep state t.procs)) t.procs =
      listing state t.groups t.procs := by
    unfold listing
    rw [filter_printed_sweep]
  have hgroups : t.groups.map (sweep state t.procs ∘ sweep state t.procs) =
      t.groups.map (sweep state t.procs) :=
    List.map_congr_left fun g _ => sweep_sweep t.procs g
  have hprocs : t.procs.map (dropMember state (t.groups.map (sweep state t.procs)) t.procs ∘
      dropMember state t.groups t.procs) = t.procs.map (dropMember state t.groups t.procs) :=
    List.map_congr_left fun e _ => dropMember_again t.procs t.groups e
  rw [htext, hgroups, hprocs]

/-! ### The listing -/

/-- Groups with different ids do not list the same process. -/
theorem countP_listed_le_one {groups : List ProcGroup} (procs : List ProcEntry)
    (hdistinct : ((groups.filter (·.active)).map (·.pgid)).Nodup) (e : ProcEntry) :
    (groups.filter (printed state procs)).countP (fun g => listed state g e) ≤ 1 := by
  have hsub : (groups.filter (printed state procs)).Sublist (groups.filter (·.active)) := by
    apply List.monotone_filter_right
    intro g hg
    simp only [printed, Bool.and_eq_true] at hg
    exact hg.1
  calc (groups.filter (printed state procs)).countP (fun g => listed state g e)
    _ ≤ (groups.filter (printed state procs)).countP (fun g => g.pgid == e.pgid) := by
      apply List.countP_mono_left
      intro g _ hg
      simp only [listed, Bool.and_eq_true, beq_iff_eq] at hg
      simp [hg.1.1]
    _ ≤ (groups.filter (·.active)).countP (fun g => g.pgid == e.pgid) := hsub.countP_le
    _ = ((groups.filter (·.active)).map (·.pgid)).count e.pgid := by
      rw [List.count, List.countP_map]
      rfl
    _ ≤ 1 := List.nodup_iff_count_le_one.mp hdistinct e.pgid

/-- **`activities` lists exactly the live processes.**  What it prints is the listing of
the tables, where no process stands twice; all it does to the tables is to deactivate
the groups without a live member, and the dead members of those that are printed; and a
second call prints the same and changes nothing. -/
theorem activities_exact (state : ℕ → Option Char) (t : JobTables)
    (hdistinct : ((t.groups.filter (·.active)).map (·.pgid)).Nodup) :
    (activitiesPrint state t).1 = listing state t.groups t.procs ∧
    (∀ e, (t.groups.filter (printed state t.procs)).countP (fun g => listed state g e) ≤ 1) ∧
    (activitiesPrint state t).2 =
      { t with
        groups := t.groups.map (sweep state t.procs)
        procs := t.procs.map (dropMember state t.groups t.procs) } ∧
    activitiesPrint state (activitiesPrint state t).2 = activitiesPrint state t := by
  refine ⟨?_, countP_listed_le_one t.procs hdistinct, ?_, activitiesPrint_again state t⟩
  · rw [activitiesPrint_eq]
  · rw [activitiesPrint_eq]

/-- A stopped pipeline of which one process is gone, and a job that has ended. -/
def twoJobs : JobTables where
  groups := [⟨7, 1, "sleep 5 | cat".toList, true, true⟩, ⟨9, 2, "ls".toList, true, false⟩]
  procs := [⟨7, 7, "sleep 5".toList, true⟩, ⟨7, 8, "cat".toList, true⟩, ⟨9, 9, "ls".toList, true⟩]

theorem activities_exact_twoJobs :
    (activitiesPrint (fun pid => if pid = 8 then some 'S' else none) twoJobs).1 =
      "[1] pgid 7\n  8 cat Stopped\n".toList ∧
    activitiesPrint (fun pid => if pid = 8 then some 'S' else none)
        (activitiesPrint (fun pid => if pid = 8 then some 'S' else none) twoJobs).2 =
      activitiesPrint (fun pid => if pid = 8 then some 'S' else none) twoJobs := by
  have hexact := activities_exact (fun pid => if pid = 8 then some 'S' else none) twoJobs
    (by decide)
  refine ⟨hexact.1.trans ?_, hexact.2.2.2⟩
  decide

end Jobs
end RuShell
