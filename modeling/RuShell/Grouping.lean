import RuShell.Launch

/-!
# One group for a pipeline

When every stage of a pipeline is forked, the shell creates a group under the process
of the first stage and registers every process of the launch as a member: the stages,
which joined the group when they were forked, and the helpers of the redirections, which
are put into it now.

All of this hangs on the first stage.  If its command does not resolve, there is no
process to lead the group: the other stages stay in the group of the shell and nothing
is registered.

## Main definitions

* `Enlisted` — which processes have been registered between two states.
* `Registered` — the state of the launch after the registration, and while the shell
  waits for the stages.

## Main results

* `enlists_registerStages`, `enlists_registerStagesBg` — every process of the stages is
  registered.
* `executePipeline_decided`, `executeBackground_registered` — what the tables and the
  groups are after a launch whose first stage was forked.
* `pipeline_tracked` — if the first stage is forked and the tables have room, everything
  that was forked is in one group and registered there.
* `stage_untracked` — a stage that is not, because the first one was not found.
-/

namespace RuShell
namespace Redirect

open Lib.Posix
open RuShell.Segment
open RuShell.Jobs (JobTables ProcEntry ProcGroup)

variable {l : LaunchState} {t : JobTables} {hs : List ℕ} {pids : List (Option ℕ)}
  {pipefds : List (ℕ × ℕ)} {zs : List (Setup × Option ℕ)} {leaderStatus : Status}

/-! ### Registering the stages -/

/-- There is room for the processes. -/
def Room (members : List ℕ) (l : LaunchState) : Prop :=
  l.tables.procKeys.length + members.length ≤ Jobs.maxProcs

/-- From `l` to `l'` the processes `joined` have been put into the group `pgid`, and the
processes `members` have been registered in it under `names` if there was room. -/
structure Enlisted (pgid : ℕ) (joined members : List ℕ) (names : List Str) (l l' : LaunchState) :
    Prop where
  groups : l'.tables.groups = l.tables.groups
  directory : directory l'.tables = (directory l.tables).addNames pgid names
  forked : l'.forked = l.forked
  statuses : l'.statuses = l.statuses
  keys : Room members l →
    l'.tables.procKeys = l.tables.procKeys ++ members.map fun pid => (pgid, pid)
  pgrp : ∀ pid, l'.pgrp pid = if pid ∈ joined then some pgid else l.pgrp pid

variable {l' : LaunchState} {stages : List CommandStage}

theorem Alike.enlisted (h : Alike l l') (pgid : ℕ) :
    Enlisted pgid [] [] [] l l' :=
  ⟨h.groups, h.directory, h.forked, h.statuses, fun _ => by simp [h.keys],
    fun pid => by simp [h.pgrp]⟩

variable {pgid : ℕ} {joined joined' members members' : List ℕ} {names names' : List Str}

theorem Enlisted.trans {l'' : LaunchState} (h : Enlisted pgid joined members names l l')
    (h' : Enlisted pgid joined' members' names' l' l'') :
    Enlisted pgid (joined ++ joined') (members ++ members') (names ++ names') l l'' := by
  refine ⟨h'.groups.trans h.groups, ?_, h'.forked.trans h.forked, h'.statuses.trans h.statuses,
    fun hroom => ?_, fun pid => ?_⟩
  · rw [Directory.addNames_append, h'.directory, h.directory]
  · unfold Room at hroom
    rw [List.length_append] at hroom
    have hfirst : Room members l := by
      unfold Room
      omega
    have hsecond : Room members' l' := by
      unfold Room
      rw [h.keys hfirst, List.length_append, List.length_map]
      omega
    rw [h'.keys hsecond, h.keys hfirst, List.map_append, List.append_assoc]
  · rw [h'.pgrp, h.pgrp]
    by_cases hpid : pid ∈ joined' <;> by_cases hpid' : pid ∈ joined <;> simp [hpid, hpid']

/-- The program puts `joined` into the group and registers `members` under `names`. -/
def Enlists (pgid : ℕ) (joined members : List ℕ) (names : List Str) (p : Prog sh Unit) : Prop :=
  ∀ l, wlp launchEffect p (fun _ l' => Enlisted pgid joined members names l l') l

theorem Enlists.seq {p q : Prog sh Unit} (hp : Enlists pgid joined members names p)
    (hq : Enlists pgid joined' members' names' q) :
    Enlists pgid (joined ++ joined') (members ++ members') (names ++ names') (do p; q) := fun l =>
  wlp_seq (hp l) fun _ l' hl' => wlp_mono (fun _ _ hl'' => hl'.trans hl'') (hq l')

theorem enlists_quiet {p : Prog sh Unit} (hp : p.Calls Quiet) : Enlists pgid [] [] [] p :=
  fun l => wlp_mono (fun _ _ h => h.enlisted pgid) (wlp_quiet hp l)

/-- A process is registered. -/
theorem enlists_groupAddMember (pid : ℕ) (name : Str) :
    Enlists pgid [] [pid] [name] (note (.groupAddMember pgid pid name)) := by
  intro l
  refine wlp_mono (fun _ l' hl' => ?_) (wlp_note _)
  refine ⟨?_, hl'.directory.trans (directory_bookTables _ _), hl'.forked, hl'.statuses,
    fun hroom => ?_, fun q => ?_⟩
  · rw [hl'.groups]
    change (Jobs.groupAddMember l.tables pgid pid name).groups = _
    unfold Jobs.groupAddMember
    split <;> rfl
  · have hlt : l.tables.procKeys.length < Jobs.maxProcs := hroom
    rw [hl'.keys]
    change (Jobs.groupAddMember l.tables pgid pid name).procKeys = _
    rw [procKeys_groupAddMember, if_pos hlt]
    rfl
  · rw [hl'.pgrp]
    simp [LaunchState.book, bookPgrp]

theorem enlists_setpgid (pid : ℕ) : Enlists pgid [pid] [] [] (setpgid pid (some pgid)) := by
  intro l
  refine wlp_mono (fun _ l' hl' => ?_) (wlp_setpgid pid (some pgid))
  refine ⟨hl'.groups, hl'.directory, hl'.forked, hl'.statuses, fun _ => ?_, fun q => ?_⟩
  · rw [hl'.keys]
    exact (List.append_nil _).symm
  · rw [hl'.pgrp]
    change Function.update l.pgrp pid (some pgid) q = _
    by_cases hq : q = pid
    · subst hq
      simp
    · simp [hq]

theorem enlists_addHelper (pid : Option ℕ) (name : Str) :
    Enlists pgid pid.toList pid.toList (pid.toList.map fun _ => name)
      (addHelper pgid pid name) := by
  cases pid with
  | none => exact enlists_quiet trivial
  | some pid => exact (enlists_setpgid pid).seq (enlists_groupAddMember pid name)

/-- The names of the helpers of a stage. -/
def helperNames (io : StageIo) : List Str :=
  (io.writer.toList.map fun _ => "<redirect_in>".toList) ++
    io.reader.toList.map fun _ => "<redirect_out>".toList

theorem enlists_addHelpers (io : StageIo) :
    Enlists pgid io.helpers io.helpers (helperNames io) (addHelpers pgid io) :=
  (enlists_addHelper io.writer _).seq (enlists_addHelper io.reader _)

/-- The processes of a stage. -/
def memberPids (z : Row) : List ℕ := z.2.2.toList ++ z.2.1.io.helpers

/-- Their names. -/
def stageNames (z : Row) : List Str :=
  (z.2.2.toList.map fun _ => joinArgs z.1.args 256) ++ helperNames z.2.1.io

/-- The loop over the stages registers every process of them. -/
theorem enlists_registerEach {first : ℕ → ℕ → Prog sh Unit}
    (hfirst : ∀ i pid, (first i pid).Calls Quiet) (zs : List Row) (i : ℕ) :
    Enlists pgid (zs.flatMap fun z => z.2.1.io.helpers) (zs.flatMap memberPids)
      (zs.flatMap stageNames) (registerEach pgid first zs i) := by
  induction zs generalizing i with
  | nil => exact enlists_quiet trivial
  | cons z zs ih =>
    obtain ⟨st, x, child⟩ := z
    have hrest := (enlists_addHelpers x.io).seq (ih (i + 1))
    cases child with
    | none => exact hrest
    | some pid =>
      exact (enlists_quiet (hfirst i pid)).seq ((enlists_groupAddMember pid _).seq hrest)

theorem enlists_registerStages (zs : List Row) :
    Enlists pgid (zs.flatMap fun z => z.2.1.io.helpers) (zs.flatMap memberPids)
      (zs.flatMap stageNames) (registerStages pgid zs) := by
  refine enlists_registerEach (fun i pid => ?_) zs 0
  trivial

theorem enlists_registerStagesBg (jobId : ℤ) (zs : List Row) :
    Enlists pgid (zs.flatMap fun z => z.2.1.io.helpers) (zs.flatMap memberPids)
      (zs.flatMap stageNames) (registerStagesBg jobId pgid zs) := by
  refine enlists_registerEach (fun i pid => ?_) zs 0
  split
  · exact quiet_note rfl
  · trivial

/-! ### A registered pipeline -/

/-- The stage that was forked first. -/
def LaunchState.firstStage (l : LaunchState) : Option ℕ :=
  (l.forked.find? fun p => p.2 matches .stage _).map Prod.fst

theorem Forking.firstStage (h : Forking t hs pids l) {leader : ℕ}
    (hleader : Redirect.leaderOf pids = some leader) :
    l.firstStage = some leader ∧ (leader, Role.stage 0) ∈ l.forked := by
  obtain ⟨helpers, -, hroles, hforked⟩ := h.forked
  obtain ⟨rest, rfl⟩ := exists_of_leaderOf hleader
  have hnone : helpers.find? (fun p => p.2 matches .stage _) = none := by
    refine List.find?_eq_none.mpr fun p hp => ?_
    cases hrole : p.2 with
    | stage i => exact absurd hrole (hroles p hp i)
    | shell | writer i | reader i => exact Bool.false_ne_true
  rw [LaunchState.firstStage, hforked, List.find?_append, hnone]
  exact ⟨rfl, List.mem_append_right _ List.mem_cons_self⟩

/-- The launch has called `group_add` for `leader`, and every process it has forked is in
its group and is registered as a member, the leader first, if there is room; `recorded` is
what the waits have returned so far. -/
structure Registered (t : JobTables) (leader : ℕ) (stages : List CommandStage)
    (pids : List (Option ℕ)) (recorded : List (ℕ × Status)) (l : LaunchState) : Prop where
  groups : l.tables.groups = (Jobs.groupAdd t leader (joinPipeline stages 256)).groups
  directory : ∃ st more, stages[0]? = some st ∧ directory l.tables =
    ((directory t).addGroup leader).addNames leader (joinArgs st.args 256 :: more)
  statuses : l.statuses = recorded
  lead : l.firstStage = some leader ∧ (leader, Role.stage 0) ∈ l.forked
  first : ∀ pid, (pid, Role.stage 0) ∈ l.forked → pid = leader
  staged : ∀ p ∈ l.forked, ∀ i, p.2 = Role.stage i → some p.1 ∈ pids
  nodup : (pids.flatMap Option.toList).Nodup
  joined : ∀ p ∈ l.forked, l.pgrp p.1 = some leader
  members : t.procs.length + l.forked.length ≤ Jobs.maxProcs →
    ∀ p ∈ l.forked, (leader, p.1) ∈ l.tables.procKeys.drop t.procs.length

variable {leader : ℕ} {name : Str} {recorded : List (ℕ × Status)} {α β : Type}

theorem Registered.alike (h : Registered t leader stages pids recorded l) (hl : Alike l l') :
    Registered t leader stages pids recorded l' := by
  refine ⟨hl.groups.trans h.groups, hl.directory ▸ h.directory, hl.statuses.trans h.statuses,
    ?_, ?_, ?_, h.nodup, ?_, ?_⟩
  · rw [LaunchState.firstStage, hl.forked]
    exact h.lead
  · rw [hl.forked]
    exact h.first
  · rw [hl.forked]
    exact h.staged
  · rw [hl.forked, hl.pgrp]
    exact h.joined
  · rw [hl.forked, hl.keys]
    exact h.members

/-- Go past a quiet program. -/
theorem Registered.quiet {p : Prog sh α} {q : α → Prog sh β} {Q : β → LaunchState → Prop}
    (h : Registered t leader stages pids recorded l) (hp : p.Calls Quiet)
    (hq : ∀ a l', Registered t leader stages pids recorded l' → wlp launchEffect (q a) Q l') :
    wlp launchEffect (p >>= q) Q l :=
  wlp_seq (wlp_quiet hp l) fun a l' hl' => hq a l' (h.alike hl')

section Members

variable {stages : List CommandStage} {setups : List Setup}

theorem map_zip_rows (hsetups : setups.length = stages.length)
    (hpids : pids.length = stages.length) :
    (stages.zip (setups.zip pids)).map (fun z => z.2.1) = setups ∧
      (stages.zip (setups.zip pids)).map (fun z => z.2.2) = pids := by
  have hzip : (stages.zip (setups.zip pids)).map Prod.snd = setups.zip pids :=
    List.map_snd_zip (by rw [List.length_zip]; omega)
  have hfst : (setups.zip pids).map Prod.fst = setups := List.map_fst_zip (by omega)
  have hsnd : (setups.zip pids).map Prod.snd = pids := List.map_snd_zip (by omega)
  rw [← hzip, List.map_map] at hfst hsnd
  exact ⟨hfst, hsnd⟩

theorem length_memberPids (zs : List Row) :
    (zs.flatMap memberPids).length =
      (helperPids (zs.map fun z => z.2.1)).length +
        ((zs.map fun z => z.2.2).flatMap Option.toList).length := by
  induction zs with
  | nil => rfl
  | cons z zs ih =>
    simp only [List.map_cons, helperPids, List.flatMap_cons, List.length_append, memberPids]
      at ih ⊢
    omega

/-- What is registered is what was forked. -/
theorem Forking.mem_members (h : Forking t (helperPids setups) pids l)
    (hsetups : setups.length = stages.length) (hpids : pids.length = stages.length) :
    ((stages.zip (setups.zip pids)).flatMap memberPids).length = l.forked.length ∧
    ∀ p ∈ l.forked, p.1 ∈ (stages.zip (setups.zip pids)).flatMap memberPids ∧
      (p.1 ∈ (stages.zip (setups.zip pids)).flatMap (fun z => z.2.1.io.helpers) ∨
        some p.1 ∈ pids) := by
  obtain ⟨helpers, hhelpers, -, hforked⟩ := h.forked
  obtain ⟨hset, hpid⟩ := map_zip_rows hsetups hpids
  refine ⟨?_, fun p hp => ?_⟩
  · rw [length_memberPids, hset, hpid, hforked, List.length_append, ← hhelpers, List.length_map,
      ← map_fst_stagePids 0, List.length_map]
  rw [hforked] at hp
  rcases List.mem_append.mp hp with hhelper | hstage
  · have hmem : p.1 ∈ helperPids setups := hhelpers ▸ List.mem_map.mpr ⟨p, hhelper, rfl⟩
    rw [← hset, helperPids, List.flatMap_map] at hmem
    obtain ⟨z, hz, hz'⟩ := List.mem_flatMap.mp hmem
    refine ⟨List.mem_flatMap.mpr ⟨z, hz, List.mem_append_right _ hz'⟩, .inl hmem⟩
  · have hmem := (mem_stagePids hstage).1
    refine ⟨?_, .inr hmem⟩
    rw [← hpid] at hmem
    obtain ⟨z, hz, hz'⟩ := List.mem_map.mp hmem
    exact List.mem_flatMap.mpr ⟨z, hz, List.mem_append_left _ (Option.mem_toList.mpr hz')⟩

/-- The name of the leader is the first one. -/
theorem stageNames_eq_cons (hleader : leaderOf pids = some leader)
    (hsetups : setups.length = stages.length) (hpids : pids.length = stages.length) :
    ∃ st more, stages[0]? = some st ∧
      (stages.zip (setups.zip pids)).flatMap stageNames = joinArgs st.args 256 :: more := by
  obtain ⟨rest, rfl⟩ := exists_of_leaderOf hleader
  obtain ⟨x, xs, rfl⟩ := List.exists_of_length_succ _ (hsetups.trans hpids.symm)
  obtain ⟨st, sts, rfl⟩ := List.exists_of_length_succ _ hpids.symm
  exact ⟨st, _, rfl, rfl⟩

/-- Creating the group. -/
theorem groupAdd_forking (h : Forking t hs pids l) :
    wlp launchEffect (note (.groupAdd leader name)) (fun _ l' =>
      l'.tables.groups = (Jobs.groupAdd t leader name).groups ∧
      directory l'.tables = (directory t).addGroup leader ∧ l'.tables.procKeys = t.procKeys ∧
      l'.statuses = [] ∧ l'.forked = l.forked ∧ l'.pgrp = l.pgrp) l := by
  refine wlp_mono (fun _ l' hl' => ?_) (wlp_note _)
  refine ⟨?_, hl'.directory.trans (h.directory ▸ directory_bookTables _ _), ?_,
    hl'.statuses.trans h.statuses, hl'.forked, hl'.pgrp⟩
  · rw [hl'.groups]
    have hnext : l.tables.nextJobNumber = t.nextJobNumber := congrArg Directory.next h.directory
    simp only [LaunchState.book, bookTables, Jobs.groupAdd, h.groups, hnext]
    split
    · rfl
    · exact h.groups
  · rw [hl'.keys]
    simp only [LaunchState.book, bookTables, Jobs.groupAdd]
    split <;> exact h.keys

/-- Creating the group and registering the members of it, by whichever loop. -/
theorem register_registered {register : Prog sh Unit}
    (h : Forking t (helperPids setups) pids l) (hleader : leaderOf pids = some leader)
    (hsetups : setups.length = stages.length) (hpids : pids.length = stages.length)
    (hregister : Enlists leader
      ((stages.zip (setups.zip pids)).flatMap fun z => z.2.1.io.helpers)
      ((stages.zip (setups.zip pids)).flatMap memberPids)
      ((stages.zip (setups.zip pids)).flatMap stageNames) register) :
    wlp launchEffect (do
      note (.groupAdd leader (joinPipeline stages 256))
      register) (fun _ l' => Registered t leader stages pids [] l') l := by
  refine wlp_seq (groupAdd_forking h) fun _ l₁ hl₁ => ?_
  obtain ⟨hgroup, hdirectory, hkeys, hstatuses, hforked, hpgrp⟩ := hl₁
  refine wlp_mono (fun _ l₂ hl₂ => ?_) (hregister l₁)
  have hforked₂ : l₂.forked = l.forked := hl₂.forked.trans hforked
  obtain ⟨hlen, hmem⟩ := h.mem_members hsetups hpids
  refine ⟨hl₂.groups.trans hgroup, ?_, hl₂.statuses.trans hstatuses, ?_, fun pid hpid => ?_,
    fun p hp i hi => ?_, ?_, fun p hp => ?_, fun hroom p hp => ?_⟩
  · obtain ⟨st, more, hst, hnames⟩ := stageNames_eq_cons hleader hsetups hpids
    exact ⟨st, more, hst, by rw [hl₂.directory, hdirectory, hnames]⟩
  · rw [LaunchState.firstStage, hforked₂]
    exact h.firstStage hleader
  · rw [hforked₂] at hpid
    exact Option.some.inj ((h.leaderOf hpid).symm.trans hleader)
  · obtain ⟨helpers, -, hroles, hall⟩ := h.forked
    rw [hforked₂, hall] at hp
    rcases List.mem_append.mp hp with hhelper | hstage
    · exact absurd hi (hroles p hhelper i)
    · exact (mem_stagePids hstage).1
  · obtain ⟨helpers, -, -, hall⟩ := h.forked
    have hnodup := h.nodup
    rw [hall, List.map_append, map_fst_stagePids] at hnodup
    exact (List.nodup_append.mp hnodup).2.1
  · rw [hforked₂] at hp
    rw [hl₂.pgrp, hpgrp]
    split
    · rfl
    -- It is a stage, and joined the group when it was forked.
    · rename_i hnot
      have hstage := (hmem p hp).2.resolve_left hnot
      rw [h.pgrp _ hstage, hleader]
  · rw [hforked₂] at hp hroom
    have hkeysLen : t.procKeys.length = t.procs.length := List.length_map _
    have hfits : Room ((stages.zip (setups.zip pids)).flatMap memberPids) l₁ := by
      unfold Room
      rw [hkeys, hkeysLen, hlen]
      exact hroom
    rw [hl₂.keys hfits, hkeys, ← hkeysLen, List.drop_left]
    exact List.mem_map.mpr ⟨p.1, (hmem p hp).1, rfl⟩

end Members

/-! ### Waiting for the stages

The shell waits for every stage, and decides by the status of the first one. -/

/-- The wait for a stage returns. -/
theorem Registered.wait {pid : ℕ} {q : Status → Prog sh α} {Q : α → LaunchState → Prop}
    (h : Registered t leader stages pids recorded l)
    (hq : ∀ status l', Registered t leader stages pids (recorded ++ [(pid, status)]) l' →
      wlp launchEffect (q status) Q l') :
    wlp launchEffect (wait (I := sh) pid true >>= q) Q l := by
  refine wlp_bind.mpr fun status l' hl' => ?_
  obtain ⟨reaped, rfl⟩ := hl'
  have h' := h.alike (alike_handle l reaped)
  refine hq status _
    ⟨h'.groups, h'.directory, ?_, h'.lead, h'.first, h'.staged, h'.nodup, h'.joined, h'.members⟩
  exact congrArg (· ++ [((pid, status) : ℕ × Status)]) h'.statuses

/-- The waits for the stages after the first. -/
theorem waitStages_later {i : ℕ}
    (hi : i ≠ 0) (h : Registered t leader stages pids recorded l) :
    wlp launchEffect (waitStages zs i leaderStatus) (fun status l' => status = leaderStatus ∧
      ∃ new, Registered t leader stages pids (recorded ++ new) l' ∧
        new.map Prod.fst = zs.flatMap fun z => z.2.toList) l := by
  induction zs generalizing i l recorded with
  | nil =>
    refine ⟨rfl, [], ?_, rfl⟩
    rwa [List.append_nil]
  | cons z zs ih =>
    obtain ⟨x, child⟩ := z
    cases child with
    | none => exact ih (Nat.succ_ne_zero i) h
    | some pid =>
      refine h.wait fun status l h => ?_
      refine h.quiet (quiet_waitOpt _) fun _ l h => ?_
      refine h.quiet (quiet_waitOpt _) fun _ l h => ?_
      rw [if_neg hi]
      refine wlp_mono (fun status' l' hl' => ?_) (ih (Nat.succ_ne_zero i) h)
      obtain ⟨hstatus, new, hreg, hnew⟩ := hl'
      refine ⟨hstatus, (pid, status) :: new, ?_, ?_⟩
      · rwa [List.append_assoc] at hreg
      · rw [List.map_cons, hnew]
        rfl

/-- The loop returns the status of the first stage. -/
theorem waitStages_registered {x : Setup}
    (h : Registered t leader stages pids [] l) :
    wlp launchEffect (waitStages ((x, some leader) :: zs) 0 leaderStatus) (fun status l' =>
      ∃ new, Registered t leader stages pids ((leader, status) :: new) l' ∧
        new.map Prod.fst = zs.flatMap fun z => z.2.toList) l := by
  refine h.wait fun status l h => ?_
  refine h.quiet (quiet_waitOpt _) fun _ l h => ?_
  refine h.quiet (quiet_waitOpt _) fun _ l h => ?_
  rw [if_pos rfl]
  refine wlp_mono (fun status' l' hl' => ?_) (waitStages_later (Nat.succ_ne_zero 0) h)
  obtain ⟨rfl, new, hreg, hnew⟩ := hl'
  exact ⟨new, hreg, hnew⟩

/-- What the shell does with the job when the waits have returned. -/
structure Decided (leader : ℕ) (cmdline : Str) (status : Status) (l l' : LaunchState) : Prop where
  groups : l'.tables.groups = Lib.updateFirst (ProcGroup.isFor leader)
    (fun g => if status = .stopped then { g with stopped := true } else { g with active := false })
    l.tables.groups
  directory : directory l'.tables = directory l.tables
  keys : l'.tables.procKeys = l.tables.procKeys
  forked : l'.forked = l.forked
  pgrp : l'.pgrp = l.pgrp
  statuses : l'.statuses = l.statuses
  out : status = .stopped →
    stoppedMessage (Jobs.markGroupStopped l.tables leader).1 cmdline ∈ l'.out

theorem wlp_printf (text : Str) :
    wlp launchEffect (printf text) (fun _ l' => Alike l l' ∧ text ∈ l'.out) l := by
  refine wlp_bind.mpr (wlp_book _ fun _ m l' hm _ hl' => ?_)
  subst hl'
  refine ⟨hm.trans (alike_book rfl m), ?_⟩
  exact List.mem_append_right _ (List.mem_singleton.mpr rfl)

theorem finishJob_decided (status : Status) (cmdline : Str) :
    wlp launchEffect (finishJob leader status cmdline)
      (fun _ l' => Decided leader cmdline status l l') l := by
  unfold finishJob
  split
  · rename_i hstatus
    subst hstatus
    refine wlp_bind.mpr (wlp_book _ fun jid m l₁ hm hjid hl₁ => ?_)
    have hbook := hm.book (.markGroupStopped leader)
    rw [← hl₁] at hbook
    have hvalue : jid = (Jobs.markGroupStopped l.tables leader).1 := by
      rw [hjid _ rfl]
      simp only [Jobs.markGroupStopped, hm.groups]
      split <;> rfl
    refine wlp_seq (wlp_printf _) fun _ l₂ hl₂ => ?_
    have hall := hbook.trans hl₂.1
    refine ⟨?_, hall.directory.trans (directory_bookTables _ _), ?_, hall.forked, hall.pgrp,
      hall.statuses, fun _ => hvalue ▸ hl₂.2⟩
    · rw [hall.groups]
      exact groups_markGroupStopped _ _
    · rw [hall.keys]
      exact procKeys_markGroupStopped _ _
  · rename_i hstatus
    refine wlp_seq (wlp_note _) fun _ l₁ hl₁ => ?_
    refine ⟨?_, hl₁.directory.trans (directory_bookTables _ _), ?_, hl₁.forked, hl₁.pgrp,
      hl₁.statuses, fun h => absurd h hstatus⟩
    · rw [hl₁.groups]
      simp only [if_neg hstatus]
      rfl
    · rw [hl₁.keys]
      exact procKeys_groupRemove _ _

/-- The foreground: the pipeline is registered, the shell waits for every stage, and
decides by the status of the first one. -/
theorem pipelineParent_decided {setups : List Setup}
    (h : Forking t (helperPids setups) pids l) (hleader : leaderOf pids = some leader)
    (hsetups : setups.length = stages.length) (hpids : pids.length = stages.length) :
    wlp launchEffect (pipelineParent stages pipefds setups pids) (fun _ l' => ∃ status new m,
      Registered t leader stages pids ((leader, status) :: new) m ∧
      ((leader, status) :: new).map Prod.fst = pids.flatMap Option.toList ∧
      Decided leader (joinPipeline stages 256) status m l') l := by
  obtain ⟨rest, rfl⟩ := exists_of_leaderOf hleader
  have hlen := hsetups.trans hpids.symm
  obtain ⟨x, xs, rfl⟩ := List.exists_of_length_succ _ hlen
  rw [List.length_cons, List.length_cons, Nat.add_right_cancel_iff] at hlen
  unfold pipelineParent
  rw [hleader]
  dsimp only
  rw [← Prog.bind_assoc]
  refine wlp_seq (register_registered h hleader hsetups hpids (enlists_registerStages _))
    fun _ l h => ?_
  refine h.quiet (quiet_note rfl) fun _ l h => ?_
  refine h.quiet (quiet_note rfl) fun _ l h => ?_
  refine h.quiet (quiet_minor (minor_closeFds _)) fun _ l h => ?_
  refine h.quiet (quiet_minor (minor_closeStages _)) fun _ l h => ?_
  refine wlp_seq (waitStages_registered h) fun status l hl => ?_
  obtain ⟨new, h, hnew⟩ := hl
  refine h.quiet (quiet_note rfl) fun _ l h => ?_
  have hall : ((leader, status) :: new).map Prod.fst =
      (some leader :: rest).flatMap Option.toList := by
    have hsnd : (xs.zip rest).map Prod.snd = rest := List.map_snd_zip (by omega)
    have hzip : (xs.zip rest).flatMap (fun z => z.2.toList) =
        ((xs.zip rest).map Prod.snd).flatMap Option.toList := (List.flatMap_map ..).symm
    rw [hsnd] at hzip
    exact congrArg (leader :: ·) (hnew.trans hzip)
  exact wlp_mono (fun _ l' hl' => ⟨_, new, l, h, hall, hl'⟩) (finishJob_decided _ _)

/-! ### The whole launch -/

/-- Without a leader the shell only waits. -/
theorem waitStages_frame {i : ℕ} :
    wlp launchEffect (waitStages zs i leaderStatus)
      (fun _ l' => l'.forked = l.forked ∧ l'.tables.groups = l.tables.groups ∧
        directory l'.tables = directory l.tables) l := by
  induction zs generalizing i leaderStatus l with
  | nil => exact ⟨rfl, rfl, rfl⟩
  | cons z zs ih =>
    obtain ⟨x, child⟩ := z
    cases child with
    | none => exact ih
    | some pid =>
      refine wlp_bind.mpr fun status l₁ hl₁ => ?_
      obtain ⟨reaped, rfl⟩ := hl₁
      refine wlp_seq (wlp_quiet (quiet_waitOpt _) _) fun _ l₂ hl₂ => ?_
      refine wlp_seq (wlp_quiet (quiet_waitOpt _) _) fun _ l₃ hl₃ => ?_
      have hhandle := alike_handle l reaped
      refine wlp_mono (fun _ _ h => ⟨?_, ?_, ?_⟩) ih
      · exact h.1.trans (hl₃.forked.trans hl₂.forked)
      · exact h.2.1.trans (hl₃.groups.trans (hl₂.groups.trans hhandle.groups))
      · exact h.2.2.trans (hl₃.directory.trans (hl₂.directory.trans hhandle.directory))

/-- The first stage has not been forked, and no group has been entered. -/
def Leaderless (t : JobTables) (l : LaunchState) : Prop :=
  l.tables.groups = t.groups ∧ directory l.tables = directory t ∧
    ∀ leader, (leader, Role.stage 0) ∉ l.forked

theorem Forking.leaderless (h : Forking t hs pids l) (hleader : Redirect.leaderOf pids = none) :
    Leaderless t l := by
  refine ⟨h.groups, h.directory, fun leader hmem => ?_⟩
  have hsome := h.leaderOf hmem
  rw [hleader] at hsome
  cases hsome

theorem pipelineParent_leaderless {setups : List Setup}
    (h : Forking t hs pids l) (hleader : leaderOf pids = none) :
    wlp launchEffect (pipelineParent stages pipefds setups pids)
      (fun _ l' => Leaderless t l') l := by
  unfold pipelineParent
  rw [hleader]
  refine h.quiet (quiet_note rfl) fun _ l h => ?_
  refine h.quiet (quiet_minor (minor_closeFds _)) fun _ l h => ?_
  refine h.quiet (quiet_minor (minor_closeStages _)) fun _ l h => ?_
  refine wlp_seq waitStages_frame fun _ l' hl' => ?_
  obtain ⟨hgroups, hdirectory, hnot⟩ := h.leaderless hleader
  refine ⟨hl'.2.1.trans hgroups, hl'.2.2.trans hdirectory, ?_⟩
  rw [hl'.1]
  exact hnot

/-- A foreground pipeline. -/
theorem executePipeline_decided (t : JobTables) (env : Env) (hstages : 2 ≤ stages.length) :
    wlp launchEffect (executePipeline env stages) (fun _ l' => Leaderless t l' ∨
      ∃ leader pids status new m,
        Registered t leader stages pids ((leader, status) :: new) m ∧
        ((leader, status) :: new).map Prod.fst = pids.flatMap Option.toList ∧
        Decided leader (joinPipeline stages 256) status m l') { tables := t } := by
  refine executePipeline_forking hstages (fun pipefds setups pids l hsetups hpids h => ?_)
    fun hs z l h => .inl ⟨h.groups, h.directory, fun _ => h.stage_not_mem⟩
  cases hleader : Redirect.leaderOf pids with
  | none => exact wlp_mono (fun _ _ => .inl) (pipelineParent_leaderless h hleader)
  | some leader =>
    exact wlp_mono (fun _ _ hl' => .inr ⟨leader, pids, hl'⟩)
      (pipelineParent_decided h hleader hsetups hpids)

theorem backgroundParent_registered {setups : List Setup}
    {sync : Option (ℕ × ℕ)} (h : Forking t (helperPids setups) pids l)
    (hsetups : setups.length = stages.length) (hpids : pids.length = stages.length) :
    wlp launchEffect (backgroundParent stages pipefds setups sync pids) (fun _ l' =>
      Leaderless t l' ∨
        ∃ leader pids, Registered t leader stages pids [] l') l := by
  refine h.quiet (quiet_minor (minor_closeFds _)) fun _ l h => ?_
  refine h.quiet (quiet_minor (minor_closeStages _)) fun _ l h => ?_
  refine h.quiet (quiet_minor (minor_closeOpt _)) fun _ l h => ?_
  cases hleader : leaderOf pids with
  | none =>
    refine h.quiet (quiet_minor (minor_closeOpt _)) fun _ l h => ?_
    exact h.quiet (quiet_note rfl) fun _ l h => .inl (h.leaderless hleader)
  | some leader =>
    refine h.quiet (quiet_book rfl) fun jobId l h => ?_
    rw [← Prog.bind_assoc]
    refine wlp_seq (register_registered h hleader hsetups hpids
      (enlists_registerStagesBg jobId _)) fun _ l h => ?_
    refine h.quiet (quiet_minor (minor_printf _)) fun _ l h => ?_
    refine h.quiet (quiet_minor (minor_closeOpt _)) fun _ l h => ?_
    exact h.quiet (quiet_note rfl) fun _ l h => .inr ⟨leader, pids, h⟩

/-- A background pipeline. -/
theorem executeBackground_registered (t : JobTables) (env : Env) (hstages : 2 ≤ stages.length) :
    wlp launchEffect (executeBackground env stages) (fun _ l' => Leaderless t l' ∨
      ∃ leader pids, Registered t leader stages pids [] l')
      { tables := t } :=
  executeBackground_forking hstages
    (fun _ _ _ _ _ hsetups hpids h => backgroundParent_registered h hsetups hpids)
    fun _ _ _ h => .inl ⟨h.groups, h.directory, fun _ => h.stage_not_mem⟩

/-! ### Every process is tracked -/

/-- The decision keeps the entry of the group, whatever it writes into it. -/
theorem Decided.map_pgid {cmdline : Str} {status : Status}
    (h : Decided leader cmdline status l l') :
    l'.tables.groups.map (·.pgid) = l.tables.groups.map (·.pgid) := by
  rw [h.groups]
  refine Lib.map_updateFirst fun g _ => ?_
  split <;> rfl

/-- The entry for the group that is there after `group_add`. -/
theorem getElem?_groupAdd (t : JobTables) (leader : ℕ) (name : Str) :
    ((Jobs.groupAdd t leader name).groups.map (·.pgid))[t.groups.length]? =
      if t.groups.length < Jobs.maxJobs then some leader else none := by
  unfold Jobs.groupAdd
  split <;> simp

/-- What a launch leaves in the tables. -/
theorem exec_registered {env : Env} {z : ℤ} (hstages : 2 ≤ stages.length)
    (hrun : Exec launchEffect (executePipeline env stages) { tables := t } z l ∨
      Exec launchEffect (executeBackground env stages) { tables := t } z l) :
    Leaderless t l ∨ ∃ leader, l.firstStage = some leader ∧ (leader, Role.stage 0) ∈ l.forked ∧
      (l.tables.groups.map (·.pgid))[t.groups.length]? =
        (if t.groups.length < Jobs.maxJobs then some leader else none) ∧
      (t.procs.length + l.forked.length ≤ Jobs.maxProcs → ∀ p ∈ l.forked,
        l.pgrp p.1 = some leader ∧ (leader, p.1) ∈ l.tables.procKeys.drop t.procs.length) ∧
      ∃ st more, stages[0]? = some st ∧ directory l.tables =
        ((directory t).addGroup leader).addNames leader (joinArgs st.args 256 :: more) := by
  rcases hrun with hrun | hrun
  · refine (wlp_iff.mp (executePipeline_decided t env hstages) z l hrun).imp_right ?_
    rintro ⟨leader, pids, status, new, m, hreg, -, hdecided⟩
    rw [LaunchState.firstStage, hdecided.forked, hdecided.map_pgid, hdecided.pgrp, hdecided.keys,
      hdecided.directory, hreg.groups]
    exact ⟨leader, hreg.lead.1, hreg.lead.2, getElem?_groupAdd .., fun hprocs p hp =>
      ⟨hreg.joined p hp, hreg.members hprocs p hp⟩, hreg.directory⟩
  · refine (wlp_iff.mp (executeBackground_registered t env hstages) z l hrun).imp_right ?_
    rintro ⟨leader, pids, hreg⟩
    rw [hreg.groups]
    exact ⟨leader, hreg.lead.1, hreg.lead.2, getElem?_groupAdd .., fun hprocs p hp =>
      ⟨hreg.joined p hp, hreg.members hprocs p hp⟩, hreg.directory⟩

/-- The table of processes has no more entries than it can hold, unless it had them
before, and no pid is given twice. -/
def Bounded (n : ℕ) (l : LaunchState) : Prop :=
  l.tables.procKeys.length ≤ max n Jobs.maxProcs ∧ (l.forked.map Prod.fst).Nodup

theorem bounded_start (t : JobTables) : Bounded t.procs.length { tables := t } :=
  ⟨(List.length_map _).trans_le (Nat.le_max_left _ _), List.nodup_nil⟩

theorem length_procKeys_bookTables (t : JobTables) (b : Book) :
    (bookTables t b).procKeys.length ≤ max t.procKeys.length Jobs.maxProcs := by
  have hle : t.procKeys.length ≤ max t.procKeys.length Jobs.maxProcs := Nat.le_max_left _ _
  cases b with
  | groupAdd pgid name =>
    simp only [bookTables, Jobs.groupAdd]
    split <;> exact hle
  | groupAddMember pgid pid name =>
    simp only [bookTables, procKeys_groupAddMember]
    split
    · rw [List.length_append, List.length_singleton]
      omega
    · exact hle
  | jobAdd pid name =>
    simp only [bookTables, Jobs.jobAdd]
    split <;> exact hle
  | jobAddMemberBg jobId pid =>
    simp only [bookTables, Jobs.jobAddMemberBg]
    split <;> exact hle
  | markGroupStopped pgid =>
    rw [bookTables, procKeys_markGroupStopped]
    exact hle
  | groupRemove pgid =>
    rw [bookTables, procKeys_groupRemove]
    exact hle
  | _ => exact hle

theorem bounded_of_exec {p : Prog sh α} {a : α} {n : ℕ}
    (h : Exec launchEffect p l a l') (hl : Bounded n l) : Bounded n l' := by
  refine h.invariant (fun {c l x l'} hcall hl => ?_) (fun {r l pid l'} hfork hl => ?_) hl
  · obtain ⟨reaped, hcall⟩ := hcall
    obtain ⟨hlen, hnodup⟩ := hl
    rw [← (alike_handle l reaped).keys] at hlen
    cases c with
    | book b =>
      obtain ⟨-, rfl⟩ := hcall
      exact ⟨(length_procKeys_bookTables _ b).trans (max_le hlen (Nat.le_max_right _ _)), hnodup⟩
    | wait pid untraced =>
      cases untraced <;>
      · obtain rfl := hcall
        exact ⟨hlen, hnodup⟩
    | _ =>
      obtain rfl := hcall
      exact ⟨hlen, hnodup⟩
  · cases pid with
    | none =>
      obtain rfl := hfork
      exact hl
    | some pid =>
      obtain ⟨hnew, rfl⟩ := hfork
      refine ⟨hl.1, ?_⟩
      rw [List.map_append, List.nodup_append_comm]
      exact List.nodup_cons.mpr ⟨hnew, hl.2⟩

/-- **Every process of a pipeline is tracked exactly if** nothing is forked, or the first
stage is and the tables have room: then every process that is forked in this launch is in
the group of the stage that was forked first and is entered as a member of it, and the
group itself is entered. -/
theorem pipeline_tracked {env : Env} {z : ℤ}
    (hstages : 2 ≤ stages.length)
    (hrun : Exec launchEffect (executePipeline env stages) { tables := t } z l ∨
      Exec launchEffect (executeBackground env stages) { tables := t } z l) :
    (l.forked ≠ [] → ∃ leader, l.firstStage = some leader ∧
      (∃ g, l.tables.groups[t.groups.length]? = some g ∧ g.pgid = leader) ∧
      ∀ p ∈ l.forked, l.pgrp p.1 = some leader ∧
        (leader, p.1) ∈ l.tables.procKeys.drop t.procs.length) ↔
    (l.forked ≠ [] → (∃ leader, (leader, Role.stage 0) ∈ l.forked) ∧
      t.groups.length < Jobs.maxJobs ∧ t.procs.length + l.forked.length ≤ Jobs.maxProcs) := by
  refine imp_congr_right fun hforked => ?_
  have hreg := exec_registered hstages hrun
  constructor
  · rintro ⟨leader, -, ⟨g, hg, -⟩, hall⟩
    have hgroup : (l.tables.groups.map (·.pgid))[t.groups.length]? = some g.pgid := by
      rw [List.getElem?_map, hg, Option.map_some]
    rcases hreg with ⟨hgroups, -, -⟩ | ⟨first, -, hfirst, hentry, -⟩
    · simp [hgroups] at hg
    · rw [hgroup] at hentry
      refine ⟨⟨first, hfirst⟩, ?_, ?_⟩
      · by_contra hfull
        rw [if_neg hfull] at hentry
        cases hentry
      · -- as many keys as processes have been entered
        have hstart := bounded_start t
        obtain ⟨hlen, hnodup⟩ := hrun.elim (bounded_of_exec · hstart) (bounded_of_exec · hstart)
        have hsub : l.forked.map Prod.fst ⊆
            (l.tables.procKeys.drop t.procs.length).map Prod.snd := by
          intro pid hpid
          obtain ⟨p, hp, rfl⟩ := List.mem_map.mp hpid
          exact List.mem_map.mpr ⟨_, (hall p hp).2, rfl⟩
        have hle := (List.subperm_of_subset hnodup hsub).length_le
        have hpos := List.length_pos_iff.mpr hforked
        rw [List.length_map, List.length_map, List.length_drop] at hle
        omega
  · rintro ⟨⟨leader, hleader⟩, hgroups, hprocs⟩
    rcases hreg with ⟨-, -, hnot⟩ | ⟨first, hfirst, -, hentry, hall, -⟩
    · exact absurd hleader (hnot leader)
    · rw [if_pos hgroups, List.getElem?_map] at hentry
      exact ⟨first, hfirst, Option.map_eq_some_iff.mp hentry, hall hprocs⟩

/-- `a < f | b > g` -/
def aInBOut : List CommandStage := [⟨[['a']], [['f']], []⟩, ⟨[['b']], [], [(['g'], false)]⟩]

/-- Its four processes: the two stages and their helpers. -/
theorem pipeline_tracked_four : ∃ z l,
    Exec launchEffect (executePipeline plainEnv aInBOut) { tables := {} } z l ∧
    l.forked.length = 4 ∧ ∃ leader, l.firstStage = some leader ∧
      (∃ g, l.tables.groups[0]? = some g ∧ g.pgid = leader) ∧
      ∀ p ∈ l.forked, l.pgrp p.1 = some leader ∧ (leader, p.1) ∈ l.tables.procKeys.drop 0 := by
  have h : (play (fun _ => .exited) (executePipeline plainEnv aInBOut) { tables := {} }).any
      (fun x => decide ((102, Role.stage 0) ∈ x.2.forked ∧ x.2.forked.length = 4)) = true := by
    decide +kernel
  obtain ⟨⟨z, l⟩, hplay, hl⟩ := (Option.any_eq_true _ _).mp h
  obtain ⟨hfirst, hfour⟩ := of_decide_eq_true hl
  have hrun := exec_of_play hplay
  refine ⟨z, l, hrun, hfour, ?_⟩
  refine (pipeline_tracked (by decide) (.inl hrun)).mpr (fun _ => ⟨⟨102, hfirst⟩, by decide, ?_⟩)
    (List.ne_nil_of_mem hfirst)
  rw [hfour]
  decide

/-- The command of the first stage of `x | b` is not found: the process of the second
stage stays in the group of the shell and the tables remain empty. -/
theorem stage_untracked : ∃ z l,
    Exec launchEffect (executePipeline
      { plainEnv with resolve := fun name => if name = ['x'] then none else some name }
      [⟨[['x']], [], []⟩, ⟨[['b']], [], []⟩]) { tables := {} } z l ∧
    (100, Role.stage 1) ∈ l.forked ∧ l.pgrp 100 = none ∧ l.tables = {} := by
  have h : (play (fun _ => .exited) (executePipeline
      { plainEnv with resolve := fun name => if name = ['x'] then none else some name }
      [⟨[['x']], [], []⟩, ⟨[['b']], [], []⟩]) { tables := {} }).any
      (fun x => decide ((100, Role.stage 1) ∈ x.2.forked ∧ x.2.pgrp 100 = none ∧
        x.2.tables = {})) = true := by
    decide +kernel
  obtain ⟨⟨z, l⟩, hplay, hl⟩ := (Option.any_eq_true _ _).mp h
  exact ⟨z, l, exec_of_play hplay, of_decide_eq_true hl⟩

end Redirect
end RuShell
