import RuShell.ControlLaunch

/-!
# Back at the prompt

Every command of a session that starts at the prompt, with tables that are exact, ends
there with tables that are exact.  When the shell has waited for a foreground job, it
either marks the job as stopped, and then its leader is still there, or removes it.

## Main definitions

* `Home` — the state at the prompt.
* `Judged` — the wait for the leader has returned.
* `Ended` — the job is marked or removed.
* `Forked` — the loop that forks the stages.

## Main results

* `executePipeline_home`, `executeBackground_home` — launches end at the prompt.
-/

namespace RuShell
namespace Control

open Lib (Run)
open Lib.Posix
open RuShell.Segment
open RuShell.Jobs (JobTables ProcEntry ProcGroup)
open RuShell.Redirect

variable {steady new back : Prop} {s t u : State} {fg : Bool} {l p : ℕ} {hs ps : List ℕ}
  {status : Status} {env : Env} {st : CommandStage}

/-- The shell is at the prompt: there is no launch and no job in the foreground. -/
def Home (steady : Prop) (s : State) : Prop := Staff steady false none [] s

theorem kept_home : Kept steady (Home steady) := kept_staff

/-- A launch without a leader leaves nothing behind. -/
theorem Staff.settle (h : Staff steady fg none hs s) : Home steady s.settle := by
  have hjob : s.fgJob = none := by
    rw [h.job]
    cases fg <;> rfl
  have hbase : Base steady none s := by
    have hbase := h.base
    cases fg <;> exact hbase
  refine ⟨⟨fun hstale g hg hactive _ => ?_, hbase.flags, hbase.tty, hbase.free, hbase.status,
    hbase.listed, hbase.nodup, hbase.grouped, hbase.members⟩, rfl, rfl, fun p hp => (by cases hp)⟩
  exact hbase.alive hstale g hg hactive (by rw [hjob]; simp)

/-! ### The wait for the leader -/

/-- The wait for the leader of a foreground job has returned `status`: if that says that
it has stopped, it is still there.  If `back`, the shell has the terminal again. -/
structure Judged (steady : Prop) (l : ℕ) (hs : List ℕ) (status : Status) (back : Prop)
    (s : State) : Prop where
  staff : Staff steady true (some l) hs s
  group : s.pgrp l = some l
  tty : back → s.tty = none
  life : status = .stopped →
    (s.stale = false → unreaped (s.kids l) = true) ∧ (steady → s.kids l = .stopped)

/-- The job is marked or removed: its entry is exact. -/
structure Ended (steady : Prop) (l : ℕ) (s : State) : Prop where
  base : Base steady (some l) s
  mode : s.launching = true
  job : s.fgJob = some l
  tty : s.tty = none
  group : s.pgrp l = some l
  entry : ∀ g ∈ s.tables.groups, g.active = true → g.pgid = l →
    (s.stale = false → unreaped (s.kids l) = true) ∧
      (steady → g.stopped = true ∧ s.kids l = .stopped)

theorem kept_judged : Kept steady (Judged steady l hs status back) where
  move := by
    intro s m t h hstep
    refine ⟨h.staff.move hstep, ?_, ?_, fun hstop => ?_⟩
    · rw [(frame_move hstep).pgrp]
      exact h.group
    · rw [(frame_move hstep).tty]
      exact h.tty
    · obtain ⟨hlife, hstopped⟩ := h.life hstop
      exact ⟨unreaped_move hstep h.staff.mode h.staff.job hlife, fun hsteady =>
        stopped_move hsteady hstep (hstopped hsteady)⟩
  out := fun out h => ⟨h.staff.same (same_out _ out), h.group, h.tty, h.life⟩

theorem kept_ended : Kept steady (Ended steady l) where
  move := by
    intro s m t h hstep
    have hframe := frame_move hstep
    refine ⟨h.base.move hstep, hframe.launching.trans h.mode, hframe.fgJob.trans h.job,
      hframe.tty.trans h.tty, ?_, ?_⟩
    · rw [hframe.pgrp]
      exact h.group
    · rw [hframe.groups]
      intro g hg hactive hpgid
      obtain ⟨hlife, hstopped⟩ := h.entry g hg hactive hpgid
      exact ⟨unreaped_move hstep h.mode h.job hlife, fun hsteady =>
        ⟨(hstopped hsteady).1, stopped_move hsteady hstep (hstopped hsteady).2⟩⟩
  out := fun out h => ⟨(same_out _ out).base h.base, h.mode, h.job, h.tty, h.group, h.entry⟩

/-- The shell is back at the prompt. -/
theorem Ended.home (h : Ended steady l s) : Home steady s.settle := by
  have hmem := (h.base.grouped l l h.group).1
  refine ⟨⟨?_, ?_, fun q hq => ?_, h.base.free, h.base.status, h.base.listed, h.base.nodup,
    h.base.grouped, h.base.members⟩, rfl, rfl, fun p hp => (by cases hp)⟩
  · intro hstale g hg hactive _
    by_cases hpgid : g.pgid = l
    · obtain ⟨hlife, -⟩ := h.entry g hg hactive hpgid
      rw [hpgid]
      exact ⟨l, hmem, h.group, hlife hstale⟩
    · refine h.base.alive hstale g hg hactive ?_
      rw [h.job]
      exact fun heq => hpgid (Option.some.inj heq).symm
  · intro hsteady g hg hactive _
    by_cases hpgid : g.pgid = l
    · obtain ⟨-, hstopped⟩ := h.entry g hg hactive hpgid
      obtain ⟨hflag, hlife⟩ := hstopped hsteady
      rw [hpgid]
      exact ⟨fun _ => ⟨l, hmem, h.group, hlife⟩, fun _ => hflag⟩
    · exact h.base.flags hsteady g hg hactive fun heq => hpgid (Option.some.inj heq).symm
  · have htty : s.tty = some q := hq
    rw [h.tty] at htty
    cases htty

/-- Nobody terminates with the status of a stopped process. -/
theorem stopped_of_right {life : Life} (h : Right life .stopped)
    (hlife : life ≠ .terminated .stopped ∧ life ≠ .reaped .stopped) : life = .stopped := by
  cases life with
  | stopped => rfl
  | terminated status =>
    change Status.stopped = status at h
    subst h
    exact absurd rfl hlife.1
  | reaped status =>
    change Status.stopped = status at h
    subst h
    exact absurd rfl hlife.2
  | _ => exact h.elim

/-- **The wait for the leader.**  It may be interrupted, or find nothing to wait for; then the
status says nothing, but the leader is still there or the tables are stale. -/
theorem Led.waitLeader (h : Led steady true l hs ps False s) :
    wlp (controlEffect steady) (Lib.Posix.wait (I := sh) l true)
      (fun status => Judged steady l hs status False) s := by
  rintro status u ⟨t, hmoves, hright, hcall⟩
  have ht : Led steady true l hs ps False t := kept_led.moves h hmoves
  have hsame : Judged steady l hs status False t := by
    refine ⟨ht.staff, ht.group, False.elim, ?_⟩
    rintro rfl
    refine ⟨fun hstale => ?_, fun hsteady => ?_⟩
    · have hheld := ht.held hstale
      rwa [if_pos ht.staff.mode] at hheld
    · exact stopped_of_right (hright rfl hsteady) (ht.staff.base.status l)
  rcases hcall with rfl | ⟨leftover, life, hresult, rfl⟩
  · exact hsame
  · rcases waitResult_cases hresult with rfl | ⟨hlife, rfl⟩
    · change Judged steady l hs status False (t.setLife l (t.kids l))
      rw [setLife_self]
      exact hsame
    · -- The leader has terminated, and the shell has reaped it.
      have hgroup : t.pgrp l = t.fgJob := ht.group.trans ht.staff.job.symm
      refine ⟨⟨ht.staff.base.reapOwn hlife (.inr hgroup), ht.staff.mode, ht.staff.job,
        fun p hp => (ht.staff.own p hp).congr rfl rfl rfl⟩, ht.group, False.elim, ?_⟩
      rintro rfl
      exact absurd hlife (ht.staff.base.status l).1

/-- Waiting for another process of the job. -/
theorem Judged.reap {status' : Status} (h : Judged steady l hs status back s) (hp : p ∈ hs)
    (hlife : s.kids p = .terminated status') :
    Judged steady l hs status back (s.setLife p (.reaped status')) := by
  have hne : l ≠ p := fun heq => (h.staff.own p hp).ne (congrArg some heq)
  refine ⟨h.staff.reap hp (fun hfg => (by cases hfg)) hlife, h.group, h.tty, ?_⟩
  rw [setLife_kids, if_neg hne]
  exact h.life

theorem Judged.waitOpt {w : Option ℕ} (h : Judged steady l hs status back s)
    (hw : ∀ p ∈ w, p ∈ hs) :
    wlp (controlEffect steady) (waitOpt w) (fun _ => Judged steady l hs status back) s :=
  kept_judged.waitOpt h fun p hp _ _ ht hlife => ht.reap (hw p hp) hlife

/-- The shell takes the terminal back. -/
theorem Judged.reclaim (h : Judged steady l hs status back s) :
    Judged steady l hs status True (s.book .reclaimTerminal) := by
  have hbase := h.staff.base
  exact ⟨⟨⟨hbase.alive, hbase.flags, fun q hq => (by cases hq), hbase.free, hbase.status,
    hbase.listed, hbase.nodup, hbase.grouped, hbase.members⟩, h.staff.mode, h.staff.job,
    fun p hp => (h.staff.own p hp).congr rfl rfl rfl⟩, h.group, fun _ => rfl, h.life⟩

/-- The entry of the job changes. -/
theorem Judged.update (h : Judged steady l hs status True s)
    {f : ProcGroup → ProcGroup} {b : Book}
    (hgroups : (bookTables s.tables b).groups =
      Lib.updateFirst (ProcGroup.isFor l) f s.tables.groups)
    (hkeys : (bookTables s.tables b).procKeys = s.tables.procKeys)
    (hbook : (s.book b).pgrp = s.pgrp ∧ (s.book b).tty = s.tty) (hf : ∀ g, (f g).pgid = g.pgid)
    (hentry : ∀ g ∈ s.tables.groups, (f g).active = true →
      (s.stale = false → unreaped (s.kids l) = true) ∧
        (steady → (f g).stopped = true ∧ s.kids l = .stopped)) :
    Ended steady l (s.book b) := by
  obtain ⟨hpgrp, htty'⟩ := hbook
  have hbase : Base steady (some l)
      { s with tables := bookTables s.tables b, tty := s.tty, fgJob := s.fgJob } :=
    h.staff.base.updateGroup hgroups hkeys hf (fun q _ => ⟨id, id⟩) h.staff.base.tty
      fun _ _ _ _ _ => ⟨fun _ hne => absurd h.staff.job hne, fun _ hne => absurd rfl hne⟩
  have hsame : Same { s with tables := bookTables s.tables b, tty := s.tty, fgJob := s.fgJob }
      (s.book b) := ⟨rfl, rfl, rfl, rfl, hpgrp, htty', rfl, rfl, rfl⟩
  refine ⟨hsame.base hbase, h.staff.mode, h.staff.job, htty'.trans (h.tty trivial), ?_, ?_⟩
  · rw [hpgrp]
    exact h.group
  · intro g hg hactive hpgid
    have hg' : g ∈ Lib.updateFirst (ProcGroup.isFor l) f s.tables.groups := hgroups ▸ hg
    rcases h.staff.base.mem_updateFirst hg' with ⟨-, hother⟩ | ⟨a, ha, -, rfl⟩
    · exact absurd hpgid (ne_of_isFor_eq_false hother hactive)
    · exact hentry a ha hactive

/-- A job that has stopped is marked. -/
theorem Judged.mark (h : Judged steady l hs .stopped True s) :
    Ended steady l (s.book (.markGroupStopped l)) := by
  obtain ⟨hlife, hstopped⟩ := h.life rfl
  exact h.update (groups_markGroupStopped s.tables l) (procKeys_markGroupStopped s.tables l)
    ⟨rfl, rfl⟩ (fun _ => rfl) fun g _ _ => ⟨hlife, fun hsteady => ⟨rfl, hstopped hsteady⟩⟩

/-- Any other job is removed. -/
theorem Judged.remove (h : Judged steady l hs status True s) :
    Ended steady l (s.book (.groupRemove l)) :=
  h.update (f := fun g => { g with active := false }) rfl (procKeys_groupRemove s.tables l)
    ⟨rfl, rfl⟩ (fun _ => rfl) fun g _ hactive => (by cases hactive)

/-- The end of a foreground launch. -/
theorem Judged.finish {name : Str} (h : Judged steady l hs status True s) :
    wlp (controlEffect steady) (finishJob l status name) (fun _ t => Home steady t.settle) s := by
  unfold finishJob
  split
  · rename_i hstop
    subst hstop
    refine wlp_bind.mpr (kept_judged.book h fun jid t ht => ?_)
    exact kept_ended.calls ht.mark (minor_printf _) fun _ t ht => ht.home
  · exact kept_judged.note h fun t ht => ht.remove.home

/-! ### One command in the foreground -/

/-- The job gets the terminal. -/
theorem Led.giveTerminal (h : Led steady true l hs ps new s) :
    Led steady true l hs ps new (s.book (.giveTerminalTo l)) := by
  have hbase := h.staff.base
  exact ⟨⟨⟨hbase.alive, hbase.flags, fun q hq => hq, hbase.free, hbase.status, hbase.listed,
    hbase.nodup, hbase.grouped, hbase.members⟩, h.staff.mode, h.staff.job,
    fun p hp => (h.staff.own p hp).congr rfl rfl rfl⟩, h.joined, h.held, fun hn =>
    ⟨(h.unlisted hn).groups, (h.unlisted hn).calm⟩⟩

theorem commandParent_home {io : StageIo} (h : Born steady true l hs s)
    (hio : ∀ p ∈ io.helpers, p ∈ hs) :
    wlp (controlEffect steady) (commandParent l st io) (fun _ t => Home steady t.settle) s := by
  refine wlp_seq (kept_born.setpgid kept_led h fun t ht => ht.led) fun _ s h => ?_
  refine wlp_seq (h.addHelpers hio) fun _ s h => ?_
  refine kept_led.note h fun t ht => ?_
  refine kept_led.note ht.groupAdd fun t ht => ?_
  refine kept_led.note (ht.addMember ht.group) fun t ht => ?_
  refine kept_led.calls ht.giveTerminal (minor_closeOpt _) fun _ t ht => ?_
  refine kept_led.calls ht (minor_closeOpt _) fun _ t ht => ?_
  refine kept_led.note ht fun t ht => ?_
  -- From here on the handler competes with the wait.
  refine wlp_seq (ht.same (same_book (.inr (.inl rfl)) t)).waitLeader fun status t ht => ?_
  refine kept_judged.note ht fun t ht => ?_
  refine wlp_seq (ht.reclaim.waitOpt fun p hp => hio p (mem_helpers_writer p hp)) fun _ t ht => ?_
  refine wlp_seq (ht.waitOpt fun p hp => hio p (mem_helpers_reader p hp)) fun _ t ht => ?_
  exact ht.finish

/-- Staff while the signal is blocked. -/
def Blocked (steady : Prop) (fg : Bool) (hs : List ℕ) (s : State) : Prop :=
  Staff steady fg none hs s ∧ s.masked = true

theorem kept_blocked : Kept steady (Blocked steady fg hs) := by
  refine ⟨fun h hstep => ⟨h.1.move hstep, ?_⟩, fun out h => ⟨h.1.same (same_out _ out), h.2⟩⟩
  exact (frame_move hstep).masked.trans h.2

theorem Staff.block (h : Staff steady fg none hs s) : Blocked steady fg hs (s.book .block) :=
  ⟨h.same (same_book (.inl rfl) s), rfl⟩

theorem Staff.restore {lead : Option ℕ} (h : Staff steady fg lead hs s) :
    Staff steady fg lead hs (s.book .restore) :=
  h.same (same_book (.inr (.inl rfl)) s)

/-- The first stage is forked, or it is not. -/
theorem Blocked.fork (h : Blocked steady fg hs s) {Q : Forked → State → Prop}
    (hparent : ∀ l t, Born steady fg l hs t → Q (.parent l) t)
    (hfailed : ∀ t, Blocked steady fg hs t → Q .failed t) :
    wlp (controlEffect steady) (fork (I := sh) (.stage 0)) Q s := by
  constructor
  · rintro l u ⟨t, hmoves, hnew, rfl⟩
    have ht := kept_blocked.moves h hmoves
    exact hparent l _ (ht.1.born ht.2 hnew)
  · rintro u ⟨t, hmoves, rfl⟩
    exact hfailed _ (kept_blocked.moves h hmoves)

theorem executeWithRedirection_home
    (h : Staff steady true none [] s) :
    wlp (controlEffect steady) (executeWithRedirection env st)
      (fun _ t => Home steady t.settle) s := by
  refine (crew_staff steady true).prepareCommand h (fun path io t ht => ?_)
    (fun io t ht => ht.waitOpt (fun p hp => mem_helpers_writer p hp) fun _ => rfl)
    fun _ t ht => ht.settle
  refine kept_staff.note ht fun t ht => ?_
  refine wlp_bind.mpr (ht.block.fork (fun l t ht => ?_) fun t ht => ?_)
  · exact commandParent_home ht fun p hp => hp
  · refine kept_blocked.calls ht (minor_perror _) fun _ t ht => ?_
    refine kept_staff.note ht.1 fun t ht => ?_
    exact wlp_seq (ht.restore.undoStage fun p hp => hp) fun _ t ht => ht.settle

/-! ### Forking the stages -/

/-- The processes of the stages after the first. -/
def laterPids (pids : List (Option ℕ)) : List ℕ := pids.tail.flatMap Option.toList

theorem laterPids_append {pids : List (Option ℕ)} (h : pids ≠ []) (pid : Option ℕ) :
    laterPids (pids ++ [pid]) = laterPids pids ++ pid.toList := by
  unfold laterPids
  rw [List.tail_append_of_ne_nil h, List.flatMap_append, List.flatMap_singleton]

/-- The stages `pids` have been forked, as far as they could be had, and those after the
first have joined its group. -/
structure Forked (steady : Prop) (fg : Bool) (hs : List ℕ) (pids : List (Option ℕ)) (s : State) :
    Prop where
  masked : s.masked = true
  staff : Staff steady fg (leaderOf pids) (hs ++ laterPids pids) s
  led : ∀ l, leaderOf pids = some l →
    Led steady fg l (hs ++ laterPids pids) (laterPids pids) True s

variable {pids : List (Option ℕ)} {pid : ℕ}

theorem kept_forked : Kept steady (Forked steady fg hs pids) where
  move := fun h hstep => ⟨(frame_move hstep).masked.trans h.masked, h.staff.move hstep, fun l hl =>
    (h.led l hl).move hstep⟩
  out := fun out h => ⟨h.masked, h.staff.same (same_out _ out), fun l hl =>
    (h.led l hl).same (same_out _ out)⟩

theorem Blocked.forked (h : Blocked steady fg hs s) : Forked steady fg hs [] s :=
  ⟨h.2, h.1.mono fun p hp => (by simpa [laterPids] using hp), fun l hl => (by cases hl)⟩

/-- A stage that was not forked. -/
theorem Forked.skip (h : Forked steady fg hs pids s) : Forked steady fg hs (pids ++ [none]) s := by
  cases pids with
  | nil => exact ⟨h.masked, h.staff, fun l hl => (by cases hl)⟩
  | cons p pids =>
    have hlater : laterPids (p :: pids ++ [none]) = laterPids (p :: pids) := by
      rw [laterPids_append (by simp)]
      exact List.append_nil _
    have hleader : leaderOf (p :: pids ++ [none]) = leaderOf (p :: pids) :=
      leaderOf_append (by simp) none
    refine ⟨h.masked, ?_, ?_⟩
    · rw [hleader, hlater]
      exact h.staff
    · rw [hleader, hlater]
      exact h.led

/-- The first stage leads. -/
theorem Born.forked (h : Born steady fg l hs s) :
    Forked steady fg hs [some l] (s.book (.setpgid l (some l))) := by
  have hled : Led steady fg l (hs ++ laterPids [some l]) [] True (s.book (.setpgid l (some l))) :=
    h.led.mono fun p hp => (by simpa [laterPids] using hp)
  refine ⟨h.masked, hled.staff, fun l' hl' => ?_⟩
  obtain rfl : l = l' := Option.some.inj hl'
  exact hled

/-- Another stage has been forked. -/
theorem Forked.fork (h : Forked steady fg hs pids s) (hnew : pid ∉ s.pids) :
    Forked steady fg (pid :: hs) pids { s with
      pids := s.pids ++ [pid]
      kids := Function.update s.kids pid .running
      pgrp := Function.update s.pgrp pid none } := by
  have hsub : ∀ p ∈ pid :: hs ++ laterPids pids, p ∈ hs ++ laterPids pids ++ [pid] := by
    intro p hp
    simp only [List.cons_append, List.mem_cons, List.mem_append] at hp ⊢
    tauto
  refine ⟨h.masked, (h.staff.fork hnew ?_).mono hsub, fun l hl =>
    ((h.led l hl).fork hnew).mono hsub⟩
  intro hlead
  exact hnew ((h.led pid hlead).staff.base.grouped _ _ (h.led pid hlead).group).1

/-- It joins the group of the first one. -/
theorem Forked.join (h : Forked steady fg (pid :: hs) pids s) (hne : pids ≠ []) :
    Forked steady fg hs (pids ++ [some pid]) (s.book (.setpgid pid (leaderOf pids))) := by
  have hleader := leaderOf_append hne (some pid)
  have hlater := laterPids_append hne (some pid)
  have hsub : ∀ p ∈ hs ++ (laterPids pids ++ [pid]), p ∈ pid :: hs ++ laterPids pids := by
    intro p hp
    simp only [List.cons_append, List.mem_cons, List.mem_append] at hp ⊢
    tauto
  refine ⟨h.masked, ?_, ?_⟩ <;> rw [hleader, hlater]
  · cases hl : leaderOf pids with
    | none =>
      have hstaff := h.staff.mono hsub
      rw [hl] at hstaff
      exact hstaff.same ⟨rfl, rfl, rfl, rfl, rfl, rfl, rfl, rfl, rfl⟩
    | some l => exact (((h.led l hl).join (by simp)).mono hsub).staff
  · intro l hl
    rw [hl]
    have hled := ((h.led l hl).join (p := pid) (by simp)).mono hsub
    refine ⟨hled.staff, fun p hp => ?_, hled.held, hled.unlisted⟩
    rcases List.mem_cons.mp hp with rfl | hp
    · exact hled.group
    · rcases List.mem_append.mp hp with hp | hp
      · exact hled.joined p (List.mem_cons_of_mem _ hp)
      · rw [List.mem_singleton.mp hp]
        exact Function.update_self _ _ _

/-- The loop that forks the stages. -/
theorem Blocked.forkStages {child : StageProg} {zs : List (CommandStage × Setup)}
    (h : Blocked steady fg hs s) {Q : List (Option ℕ) → State → Prop}
    (hQ : ∀ pids t, Forked steady fg hs pids t → Q pids t) :
    wlp (controlEffect steady) (forkStages child zs 0 []) Q s := by
  refine wlp_forkStages (fun h => h.skip) ?_ ?_ h.forked rfl fun pids t _ ht => hQ pids t ht
  · rintro pids pid s _ h ⟨t, hmoves, hnew, rfl⟩
    have ht := kept_forked.moves h hmoves
    cases pids with
    | nil =>
      have hstaff : Staff steady fg none hs t := ht.staff.mono fun p hp =>
        List.mem_append_left _ hp
      have hborn := hstaff.born ht.masked hnew
      exact kept_born.setpgid kept_forked hborn fun t ht => ht.forked
    | cons q pids =>
      rw [if_neg fun hstage => (by cases hstage.2)]
      have hjoin : joinGroup (q :: pids).length pid (q :: pids) = leaderOf (q :: pids) :=
        if_neg (by simp)
      rw [hjoin]
      exact kept_forked.setpgid kept_forked (ht.fork hnew) fun t ht => ht.join (by simp)
  · rintro pids s _ h ⟨t, hmoves, rfl⟩
    exact wlp_of_calls kept_forked.minor (minor_perror _) (kept_forked.moves h hmoves)

/-! ### Pipelines in the foreground -/

variable {setups : List Setup} {stages : List CommandStage}

theorem mem_helperPids {x : Setup} (hx : x ∈ setups) :
    ∀ p ∈ x.io.helpers, p ∈ helperPids setups := fun _ hp => List.mem_flatMap.mpr ⟨x, hx, hp⟩

theorem mem_laterPids {q : Option ℕ} (h : some p ∈ pids) : p ∈ laterPids (q :: pids) :=
  List.mem_flatMap.mpr ⟨some p, h, List.mem_singleton_self p⟩

/-- A stage of a job with a leader is the leader or has joined it. -/
theorem mem_of_leaderOf (hl : leaderOf pids = some l) (h : some p ∈ pids) :
    p ∈ l :: laterPids pids := by
  match pids, hl, h with
  | some _ :: pids, rfl, h =>
    rcases List.mem_cons.mp h with h | h
    · exact List.mem_cons.mpr (.inl (Option.some.inj h))
    · exact List.mem_cons_of_mem _ (mem_laterPids h)

section Register

variable {rows : List Row}
  (hrows : ∀ z ∈ rows, (∀ p ∈ z.2.2, p ∈ l :: ps) ∧ ∀ p ∈ z.2.1.io.helpers, p ∈ hs)
include hrows

/-- The loop that registers the members of the group. -/
theorem Led.registerEach {first : ℕ → ℕ → Prog sh Unit} {i : ℕ} (h : Led steady fg l hs ps False s)
    (hfirst : ∀ i pid t, Led steady fg l hs ps False t →
      wlp (controlEffect steady) (first i pid) (fun _ => Led steady fg l hs ps False) t) :
    wlp (controlEffect steady) (registerEach l first rows i)
      (fun _ => Led steady fg l hs ps False) s := by
  induction rows generalizing i s with
  | nil => exact h
  | cons z rows ih =>
    obtain ⟨st, x, child⟩ := z
    obtain ⟨hchild, hio⟩ := hrows _ List.mem_cons_self
    have hrest : ∀ t, Led steady fg l hs ps False t → wlp (controlEffect steady) (do
        Redirect.addHelpers l x.io
        Redirect.registerEach l first rows (i + 1)) (fun _ => Led steady fg l hs ps False) t := by
      intro t ht
      refine wlp_seq (ht.addHelpers hio) fun _ t ht => ?_
      exact ih (fun z hz => hrows z (List.mem_cons_of_mem _ hz)) ht
    cases child with
    | none => exact hrest s h
    | some pid =>
      refine wlp_seq (hfirst i pid s h) fun _ t ht => ?_
      exact kept_led.note ht fun t ht => hrest _ (ht.addMember (ht.joined pid (hchild pid rfl)))

theorem Led.registerStages (h : Led steady fg l hs ps False s) :
    wlp (controlEffect steady) (registerStages l rows) (fun _ => Led steady fg l hs ps False) s :=
  Led.registerEach hrows h fun _ _ _ ht => ht

theorem Led.registerStagesBg {jobId : ℤ} (h : Led steady fg l hs ps False s) :
    wlp (controlEffect steady) (registerStagesBg jobId l rows)
      (fun _ => Led steady fg l hs ps False) s := by
  refine Led.registerEach hrows h fun i pid t ht => ?_
  split
  · refine wlp_bind.mpr (kept_led.book ht fun _ t ht => ht.same ?_)
    exact same_book (.inr (.inr (.inr ⟨jobId, pid, rfl⟩))) t
  · exact ht

end Register

/-- Waiting for the stages after the first. -/
theorem Kept.waitStages {P : State → Prop} (hP : Kept steady P) {zs : List (Setup × Option ℕ)}
    {i : ℕ} (hi : 0 < i) (h : P s)
    (hreap : ∀ p ∈ hs, ∀ t status, P t → t.kids p = .terminated status →
      P (t.setLife p (.reaped status)))
    (hzs : ∀ z ∈ zs, (∀ p ∈ z.2, p ∈ hs) ∧ ∀ p ∈ z.1.io.helpers, p ∈ hs) :
    wlp (controlEffect steady) (waitStages zs i status) (fun status' t => status' = status ∧ P t)
      s := by
  induction zs generalizing i s with
  | nil => exact ⟨rfl, h⟩
  | cons z zs ih =>
    obtain ⟨x, child⟩ := z
    obtain ⟨hchild, hio⟩ := hzs _ List.mem_cons_self
    have hrest : ∀ z ∈ zs, (∀ p ∈ z.2, p ∈ hs) ∧ ∀ p ∈ z.1.io.helpers, p ∈ hs :=
      fun z hz => hzs z (List.mem_cons_of_mem _ hz)
    cases child with
    | none => exact ih (Nat.succ_pos i) h hrest
    | some pid =>
      refine wlp_seq (hP.wait h (hreap pid (hchild pid rfl))) fun status' t ht => ?_
      refine wlp_seq (hP.waitOpt ht fun p hp =>
        hreap p (hio p (mem_helpers_writer p hp))) fun _ t ht => ?_
      refine wlp_seq (hP.waitOpt ht fun p hp =>
        hreap p (hio p (mem_helpers_reader p hp))) fun _ t ht => ?_
      rw [if_neg hi.ne']
      exact ih (Nat.succ_pos i) ht hrest

/-- Waiting for all stages of a job with a leader. -/
theorem Led.waitStages {later : List (Option ℕ)}
    (h : Led steady true l (helperPids setups ++ laterPids (some l :: later)) ps False s) :
    wlp (controlEffect steady) (waitStages (setups.zip (some l :: later)) 0 .exited)
      (fun status => Judged steady l (helperPids setups ++ laterPids (some l :: later)) status
        False) s := by
  cases setups with
  | nil => exact ⟨h.staff, h.group, False.elim, fun hstop => (by cases hstop)⟩
  | cons x setups =>
    have hx : ∀ p ∈ x.io.helpers, p ∈ helperPids (x :: setups) ++ laterPids (some l :: later) :=
      fun p hp => List.mem_append_left _ (mem_helperPids List.mem_cons_self p hp)
    refine wlp_seq h.waitLeader fun status t ht => ?_
    refine wlp_seq (ht.waitOpt fun p hp => hx p (mem_helpers_writer p hp)) fun _ t ht => ?_
    refine wlp_seq (ht.waitOpt fun p hp => hx p (mem_helpers_reader p hp)) fun _ t ht => ?_
    rw [if_pos rfl]
    refine wlp_mono ?_ (kept_judged.waitStages (Nat.succ_pos 0) ht
      (fun p hp _ _ ht hlife => ht.reap hp hlife) fun z hz => ?_)
    · rintro _ t ⟨rfl, ht⟩
      exact ht
    · obtain ⟨hsetup, hpid⟩ := List.of_mem_zip (show (z.1, z.2) ∈ setups.zip later from hz)
      refine ⟨fun p hp => List.mem_append_right _ (mem_laterPids (hp ▸ hpid)), fun p hp => ?_⟩
      exact List.mem_append_left _ (mem_helperPids (List.mem_cons_of_mem _ hsetup) p hp)

/-- Without a leader the shell only waits. -/
theorem Staff.waitStages (hl : leaderOf pids = none)
    (h : Staff steady true none (helperPids setups ++ laterPids pids) s) :
    wlp (controlEffect steady) (waitStages (setups.zip pids) 0 .exited)
      (fun _ => Staff steady true none (helperPids setups ++ laterPids pids)) s := by
  match setups, pids, hl with
  | [], _, _ => exact h
  | _ :: _, [], _ => exact h
  | x :: setups, none :: later, _ =>
    change wlp _ (Redirect.waitStages (setups.zip later) 1 .exited) _ s
    refine wlp_mono (fun _ t ht => ht.2) (kept_staff.waitStages (Nat.succ_pos 0) h
      (fun p hp _ _ ht hlife => ht.reap hp (fun _ => rfl) hlife) fun z hz => ?_)
    obtain ⟨hsetup, hpid⟩ := List.of_mem_zip (show (z.1, z.2) ∈ setups.zip later from hz)
    refine ⟨fun p hp => List.mem_append_right _ (mem_laterPids (hp ▸ hpid)), fun p hp => ?_⟩
    exact List.mem_append_left _ (mem_helperPids (List.mem_cons_of_mem _ hsetup) p hp)

theorem registered_zip (hl : leaderOf pids = some l) {z : Row}
    (hz : z ∈ stages.zip (setups.zip pids)) :
    (∀ p ∈ z.2.2, p ∈ l :: laterPids pids) ∧
      ∀ p ∈ z.2.1.io.helpers, p ∈ helperPids setups ++ laterPids pids := by
  obtain ⟨-, hz⟩ := List.of_mem_zip (show (z.1, z.2) ∈ stages.zip (setups.zip pids) from hz)
  obtain ⟨hsetup, hpid⟩ := List.of_mem_zip (show (z.2.1, z.2.2) ∈ setups.zip pids from hz)
  refine ⟨fun p hp => mem_of_leaderOf hl (hp ▸ hpid), fun p hp => ?_⟩
  exact List.mem_append_left _ (mem_helperPids hsetup p hp)

theorem pipelineParent_home {pipefds : List (ℕ × ℕ)}
    (h : Forked steady true (helperPids setups) pids s) :
    wlp (controlEffect steady) (pipelineParent stages pipefds setups pids)
      (fun _ t => Home steady t.settle) s := by
  unfold pipelineParent
  cases hl : leaderOf pids with
  | none =>
    have hstaff := h.staff
    rw [hl] at hstaff
    refine kept_staff.note hstaff fun t ht => ?_
    refine kept_staff.calls ht.restore (minor_closeFds _) fun _ t ht => ?_
    refine kept_staff.calls ht (minor_closeStages _) fun _ t ht => ?_
    exact wlp_seq (ht.waitStages hl) fun _ t ht => ht.settle
  | some l =>
    refine kept_led.note (h.led l hl) fun t ht => ?_
    refine wlp_seq (Led.registerStages (fun z hz => registered_zip hl hz) ht.groupAdd)
      fun _ t ht => ?_
    refine kept_led.note ht fun t ht => ?_
    refine kept_led.note (ht.same (same_book (.inr (.inl rfl)) t)) fun t ht => ?_
    refine kept_led.calls ht.giveTerminal (minor_closeFds _) fun _ t ht => ?_
    refine kept_led.calls ht (minor_closeStages _) fun _ t ht => ?_
    match pids, hl, ht with
    | some _ :: later, rfl, ht =>
      refine wlp_seq ht.waitStages fun status t ht => ?_
      exact kept_judged.note ht fun t ht => ht.reclaim.finish

/-- **A launch in the foreground ends at the prompt.** -/
theorem executePipeline_home (h : Home steady s) :
    wlp (controlEffect steady) (executePipeline env stages) (fun _ t => Home steady t.settle)
      { s with launching := true } := by
  have hstart : Staff steady true none [] { s with launching := true } :=
    ⟨⟨h.base.alive, h.base.flags, h.base.tty, h.base.free, h.base.status, h.base.listed,
      h.base.nodup, h.base.grouped, h.base.members⟩, rfl, h.job, fun p hp => (by cases hp)⟩
  match stages with
  | [] => exact hstart.settle
  | [st] => exact executeWithRedirection_home hstart
  | st :: st' :: rest =>
    show (controlEffect steady).logic.holds
      (preparePipeline env (st :: st' :: rest) (launchPipeline (st :: st' :: rest))) _ _
    refine (crew_staff steady true).preparePipeline hstart (fun pipefds setups t _ ht => ?_)
      (fun setups t ht => ht.undoStages fun p hp => hp) fun hs z t ht => ht.settle
    refine kept_staff.note ht fun t ht => ?_
    exact wlp_bind.mpr (ht.block.forkStages fun pids t ht => pipelineParent_home ht)

/-! ### Background -/

theorem Led.home (h : Led steady false l hs ps new s) : Home steady s :=
  ⟨h.staff.base, h.staff.mode, h.staff.job, fun p hp => (by cases hp)⟩

theorem executeWithRedirectionBg_led {sync : Option (ℕ × ℕ)}
    (h : Home steady s) {Q : Option ℕ → State → Prop}
    (hnone : ∀ t, Home steady t → Q none t)
    (hsome : ∀ l hs t, Led steady false l hs [] True t → Q (some l) t) :
    wlp (controlEffect steady) (executeWithRedirectionBg env st sync) Q s := by
  have hhome : ∀ hs t, Staff steady false none hs t → Q none t := fun hs t ht =>
    hnone t (ht.mono fun p hp => (by cases hp))
  refine (crew_staff steady false).prepareCommand h (fun path io t ht => ?_)
    (fun io t ht => ht.waitOpt (fun p hp => mem_helpers_writer p hp) fun _ => rfl) hhome
  refine kept_staff.note ht fun t ht => ?_
  refine wlp_bind.mpr (ht.block.fork (fun l t ht => ?_) fun t ht => ?_)
  · refine wlp_seq (kept_born.setpgid kept_led ht fun t ht => ht.led) fun _ t ht => ?_
    refine wlp_seq (ht.addHelpers fun p hp => hp) fun _ t ht => ?_
    refine kept_led.calls ht (minor_closeOpt _) fun _ t ht => ?_
    refine kept_led.calls ht (minor_closeOpt _) fun _ t ht => ?_
    exact kept_led.note ht fun t ht => hsome l _ _ (ht.same (same_book (.inr (.inl rfl)) t))
  · refine kept_blocked.calls ht (minor_perror _) fun _ t ht => ?_
    refine wlp_seq (ht.1.undoStage fun p hp => hp) fun _ t ht => ?_
    exact kept_staff.note ht fun t ht => hhome _ _ ht.restore

theorem backgroundCommand_home (h : Home steady s) :
    wlp (controlEffect steady) (backgroundCommand env st) (fun _ => Home steady) s := by
  refine kept_home.calls h (minor_pipe _) fun sync s h => ?_
  refine wlp_bind.mpr (executeWithRedirectionBg_led h (fun t ht => ?_) fun l hs t ht => ?_)
  · refine kept_home.calls ht (minor_closeOpt _) fun _ t ht => ?_
    exact kept_home.calls ht (minor_closeOpt _) fun _ t ht => ht
  · refine kept_led.calls ht (minor_closeOpt _) fun _ t ht => ?_
    -- The signal is not blocked here: the handler may take the job before it has an entry.
    refine wlp_bind.mpr (kept_led.book ht fun jobId t ht => ?_)
    have hadd := ht.same (same_book (.inr (.inr (.inl ⟨l, joinArgs st.args 256, rfl⟩))) t)
    refine kept_led.note hadd fun t ht => ?_
    refine kept_led.note ht.groupAdd fun t ht => ?_
    refine kept_led.calls (ht.addMember ht.group) (minor_printf _) fun _ t ht => ?_
    exact kept_led.calls ht (minor_closeOpt _) fun _ t ht => ht.home

theorem backgroundParent_home {pipefds : List (ℕ × ℕ)} {sync : Option (ℕ × ℕ)}
    (h : Forked steady false (helperPids setups) pids s) :
    wlp (controlEffect steady) (backgroundParent stages pipefds setups sync pids)
      (fun _ => Home steady) s := by
  refine kept_forked.calls h (minor_closeFds _) fun _ s h => ?_
  refine kept_forked.calls h (minor_closeStages _) fun _ s h => ?_
  refine kept_forked.calls h (minor_closeOpt _) fun _ s h => ?_
  cases hl : leaderOf pids with
  | none =>
    have hstaff := h.staff
    rw [hl] at hstaff
    refine kept_staff.calls hstaff (minor_closeOpt _) fun _ t ht => ?_
    exact kept_staff.note ht fun t ht => ht.restore.mono fun p hp => (by cases hp)
  | some l =>
    refine wlp_bind.mpr (kept_led.book (h.led l hl) fun jobId t ht => ?_)
    have hadd := ht.same (same_book (.inr (.inr (.inl ⟨l, joinPipeline stages 256, rfl⟩))) t)
    refine kept_led.note hadd fun t ht => ?_
    refine wlp_seq (Led.registerStagesBg (fun z hz => registered_zip hl hz) ht.groupAdd)
      fun _ t ht => ?_
    refine kept_led.calls ht (minor_printf _) fun _ t ht => ?_
    refine kept_led.calls ht (minor_closeOpt _) fun _ t ht => ?_
    exact kept_led.note ht fun t ht => (ht.same (same_book (.inr (.inl rfl)) t)).home

/-- **A launch in the background ends at the prompt.** -/
theorem executeBackground_home (h : Home steady s) :
    wlp (controlEffect steady) (executeBackground env stages) (fun _ => Home steady) s := by
  match stages with
  | [] => exact h
  | [st] => exact backgroundCommand_home h
  | st :: st' :: rest =>
    show (controlEffect steady).logic.holds
      (preparePipeline env (st :: st' :: rest) (launchBackground (st :: st' :: rest))) _ _
    refine (crew_staff steady false).preparePipeline h (fun pipefds setups t _ ht => ?_)
      (fun setups t ht => ht.undoStages fun p hp => hp) fun hs z t ht => ?_
    · refine kept_staff.note ht fun t ht => ?_
      refine kept_blocked.calls ht.block (minor_pipe _) fun sync t ht => ?_
      exact wlp_bind.mpr (ht.forkStages fun pids t ht => backgroundParent_home ht)
    · exact ht.mono fun p hp => (by cases hp)

end Control
end RuShell
