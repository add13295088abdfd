import RuShell.ControlInv

/-!
# The processes of a launch

Before its first stage is forked, a launch only has helpers.  The first stage leads the
process group of the job; from then on the group has a process that has not been reaped,
until the shell itself waits for it or the handler takes it.  The steps by which the job
gets its leader, its members and its entry keep the tables exact.

## Main definitions

* `Kept P` — moves and messages keep `P`.
* `Own`, `Staff` — the processes that a launch has forked.
* `Born`, `Led` — the job has a leader, before and after it leads its group.

## Main results

* `crew_staff` — minor calls and the forks of helpers.
* `Staff.born`, `Born.led`, `Led.groupAdd` — the job gets a leader, a group and an entry.
* `Led.addHelpers` — the helpers join the group.
-/

namespace RuShell
namespace Control

open Lib (Run)
open Lib.Posix
open RuShell.Segment
open RuShell.Jobs (JobTables ProcEntry ProcGroup)
open RuShell.Redirect

variable {steady : Prop} {s t u : State} {α β : Type} {name : Str} {io : StageIo} {m : Move} {q : ℕ}
  {w : Option ℕ} {b : Book}

/-! ### What the calls keep -/

/-- Moves and messages keep what is known. -/
structure Kept (steady : Prop) (P : State → Prop) : Prop where
  move : ∀ {s m t}, P s → MoveStep steady s m t → P t
  out : ∀ {s} (out : List Str), P s → P { s with out := out }

/-- What a wait returns, and what it does to the process. -/
theorem waitResult_cases {untraced : Bool} {leftover status : Status} {life life' : Life}
    (h : waitResult untraced leftover life = some (status, life')) :
    life' = life ∨ (life = .terminated status ∧ life' = .reaped status) := by
  cases life with
  | running => cases h
  | stopped =>
    cases untraced with
    | false => cases h
    | true =>
      cases h
      exact .inl rfl
  | terminated status' =>
    cases h
    exact .inr ⟨rfl, rfl⟩
  | _ =>
    cases h
    exact .inl rfl

theorem setLife_self (s : State) (pid : ℕ) : s.setLife pid (s.kids pid) = s := by
  unfold State.setLife
  rw [Function.update_eq_self]

namespace Kept

variable {P P' : State → Prop}

theorem moves (hP : Kept steady P) (h : P s) (hmoves : Moves steady s t) : P t :=
  hmoves.induct hP.move h

theorem minor (hP : Kept steady P) {c : Call sh} {x : c.Ret} (hc : Minor c)
    (hcall : (controlEffect steady).call c s x u) (h : P s) : P u := by
  obtain ⟨t, hmoves, hcall⟩ := hcall
  have ht := hP.moves h hmoves
  cases c with
  | book b =>
    obtain ⟨-, rfl⟩ := hcall
    cases b with
    | printf _ | perror _ => exact hP.out _ ht
    | _ => exact hc.elim
  | pipe _ | openFile _ | close _ =>
    cases hcall
    exact ht
  | _ => exact hc.elim

/-- Go past minor calls. -/
theorem calls (hP : Kept steady P) {p : Prog sh α} {q : α → Prog sh β} {Q : β → State → Prop}
    (h : P s) (hp : p.Calls Minor) (hq : ∀ a t, P t → wlp (controlEffect steady) (q a) Q t) :
    wlp (controlEffect steady) (p >>= q) Q s :=
  wlp_seq (wlp_of_calls hP.minor hp h) hq

theorem book (hP : Kept steady P) (h : P s) {Q : ℤ → State → Prop}
    (hQ : ∀ z t, P t → Q z (t.book b)) :
    wlp (controlEffect steady) (Lib.Posix.book (I := sh) b) Q s := by
  rintro z u ⟨t, hmoves, -, rfl⟩
  exact hQ z t (hP.moves h hmoves)

theorem note (hP : Kept steady P) (h : P s) {q : Unit → Prog sh β}
    {Q : β → State → Prop}
    (hQ : ∀ t, P t → wlp (controlEffect steady) (q ()) Q (t.book b)) :
    wlp (controlEffect steady) (Redirect.note b >>= q) Q s :=
  wlp_bind.mpr (wlp_bind.mpr (hP.book h fun _ t ht => hQ t ht))

theorem setpgid (hP : Kept steady P) (hP' : Kept steady P') (h : P s) {pid : ℕ} {pgid : Option ℕ}
    (hbook : ∀ t, P t → P' (t.book (.setpgid pid pgid))) :
    wlp (controlEffect steady) (Redirect.setpgid pid pgid) (fun _ => P') s := by
  refine wlp_bind.mpr (hP.book h fun z t ht => ?_)
  split
  · exact wlp_of_calls hP'.minor (minor_perror _) (hbook t ht)
  · exact hbook t ht

/-- A wait whose result does not matter. -/
theorem wait (hP : Kept steady P) (h : P s) {pid : ℕ} {untraced : Bool}
    (hreap : ∀ t status, P t → t.kids pid = .terminated status →
      P (t.setLife pid (.reaped status))) :
    wlp (controlEffect steady) (Lib.Posix.wait (I := sh) pid untraced) (fun _ => P) s := by
  rintro status u ⟨t, hmoves, -, hcall⟩
  have ht := hP.moves h hmoves
  rcases hcall with rfl | ⟨leftover, life, hresult, rfl⟩
  · exact ht
  · rcases waitResult_cases hresult with rfl | ⟨hlife, rfl⟩
    · change P (t.setLife pid (t.kids pid))
      rw [setLife_self]
      exact ht
    · exact hreap t status ht hlife

theorem waitOpt (hP : Kept steady P) (h : P s)
    (hreap : ∀ p ∈ w, ∀ t status, P t → t.kids p = .terminated status →
      P (t.setLife p (.reaped status))) :
    wlp (controlEffect steady) (Redirect.waitOpt w) (fun _ => P) s := by
  cases w with
  | none => exact h
  | some p => exact wlp_bind.mpr (hP.wait h (hreap p rfl))

end Kept

/-! ### The processes of a launch -/

/-- The launch has forked the process; `lead` leads the group of the job. -/
structure Own (lead : Option ℕ) (s : State) (p : ℕ) : Prop where
  mem : p ∈ s.pids
  ne : lead ≠ some p
  group : s.pgrp p = none ∨ s.pgrp p = lead
  keys : ∀ k ∈ s.tables.procKeys, k.2 = p → some k.1 = lead

/-- A launch in the foreground, if `fg`, that has forked the processes `hs`. -/
structure Staff (steady : Prop) (fg : Bool) (lead : Option ℕ) (hs : List ℕ) (s : State) :
    Prop where
  base : Base steady (if fg then lead else none) s
  mode : s.launching = fg
  job : s.fgJob = if fg then lead else none
  own : ∀ p ∈ hs, Own lead s p

/-- States that differ in nothing that matters here. -/
structure Same (s t : State) : Prop where
  groups : t.tables.groups = s.tables.groups
  keys : t.tables.procKeys = s.tables.procKeys
  pids : t.pids = s.pids
  kids : t.kids = s.kids
  pgrp : t.pgrp = s.pgrp
  tty : t.tty = s.tty
  launching : t.launching = s.launching
  fgJob : t.fgJob = s.fgJob
  stale : t.stale = s.stale

theorem same_out (s : State) (out : List Str) : Same s { s with out := out } :=
  ⟨rfl, rfl, rfl, rfl, rfl, rfl, rfl, rfl, rfl⟩

/-- The calls that touch only the signal mask or the table of jobs. -/
theorem same_book (hb : b = .block ∨ b = .restore ∨ (∃ pid name, b = .jobAdd pid name) ∨
    ∃ jobId pid, b = .jobAddMemberBg jobId pid) (s : State) : Same s (s.book b) := by
  rcases hb with rfl | rfl | ⟨pid, name, rfl⟩ | ⟨jobId, pid, rfl⟩
  · exact ⟨rfl, rfl, rfl, rfl, rfl, rfl, rfl, rfl, rfl⟩
  · exact ⟨rfl, rfl, rfl, rfl, rfl, rfl, rfl, rfl, rfl⟩
  · simp only [State.book, bookTables, Jobs.jobAdd]
    split <;> exact ⟨rfl, rfl, rfl, rfl, rfl, rfl, rfl, rfl, rfl⟩
  · simp only [State.book, bookTables, Jobs.jobAddMemberBg]
    split <;> exact ⟨rfl, rfl, rfl, rfl, rfl, rfl, rfl, rfl, rfl⟩

variable {ex lead : Option ℕ} {fg : Bool} {hs : List ℕ} {p pid : ℕ}

theorem Same.alive (h : Same s t) : Alive t q ↔ Alive s q := by
  unfold Alive
  rw [h.pids, h.pgrp, h.kids]

theorem Same.hasStopped (h : Same s t) : HasStopped t q ↔ HasStopped s q := by
  unfold HasStopped
  rw [h.pids, h.pgrp, h.kids]

theorem Same.base (hsame : Same s t) (h : Base steady ex s) : Base steady ex t where
  alive := by
    rw [hsame.groups, hsame.fgJob, hsame.stale]
    intro hstale g hg hactive hfg
    exact hsame.alive.mpr (h.alive hstale g hg hactive hfg)
  flags := by
    rw [hsame.groups]
    intro hsteady g hg hactive hex
    rw [hsame.hasStopped]
    exact h.flags hsteady g hg hactive hex
  tty := by
    rw [hsame.tty]
    exact h.tty
  free := by
    rw [hsame.pids, hsame.pgrp, hsame.kids]
    exact h.free
  status := by
    rw [hsame.kids]
    exact h.status
  listed := by
    rw [hsame.groups, hsame.pids]
    exact h.listed
  nodup := by
    rw [hsame.groups]
    exact h.nodup
  grouped := by
    rw [hsame.pgrp, hsame.pids]
    exact h.grouped
  members := by
    rw [hsame.keys, hsame.pgrp]
    exact h.members

theorem Own.congr (h : Own lead s p) (hpids : t.pids = s.pids) (hpgrp : t.pgrp = s.pgrp)
    (hkeys : t.tables.procKeys = s.tables.procKeys) : Own lead t p where
  mem := by
    rw [hpids]
    exact h.mem
  ne := h.ne
  group := by
    rw [hpgrp]
    exact h.group
  keys := by
    rw [hkeys]
    exact h.keys

theorem Staff.same (h : Staff steady fg lead hs s) (hsame : Same s t) :
    Staff steady fg lead hs t :=
  ⟨hsame.base h.base, hsame.launching.trans h.mode, hsame.fgJob.trans h.job,
    fun p hp => (h.own p hp).congr hsame.pids hsame.pgrp hsame.keys⟩

theorem Staff.move (h : Staff steady fg lead hs s) (hstep : MoveStep steady s m t) :
    Staff steady fg lead hs t := by
  have hframe := frame_move hstep
  exact ⟨h.base.move hstep, hframe.launching.trans h.mode, hframe.fgJob.trans h.job,
    fun p hp => (h.own p hp).congr hframe.pids hframe.pgrp hframe.keys⟩

theorem kept_staff : Kept steady (Staff steady fg lead hs) :=
  ⟨fun h hstep => h.move hstep, fun out h => h.same (same_out _ out)⟩

/-- A process that has just been forked. -/
theorem Staff.fork (h : Staff steady fg lead hs s) (hnew : pid ∉ s.pids) (hne : lead ≠ some pid) :
    Staff steady fg lead (hs ++ [pid]) { s with
      pids := s.pids ++ [pid]
      kids := Function.update s.kids pid .running
      pgrp := Function.update s.pgrp pid none } := by
  refine ⟨h.base.fork hnew (.inr rfl), h.mode, h.job, fun p hp => ?_⟩
  rcases List.mem_append.mp hp with hp | hp
  · have hown := h.own p hp
    have hpid : p ≠ pid := by
      rintro rfl
      exact hnew hown.mem
    refine ⟨List.mem_append_left _ hown.mem, hown.ne, ?_, hown.keys⟩
    change Function.update s.pgrp pid none p = none ∨ Function.update s.pgrp pid none p = lead
    rw [Function.update_of_ne hpid]
    exact hown.group
  · obtain rfl : p = pid := List.mem_singleton.mp hp
    refine ⟨List.mem_append_right _ (List.mem_singleton_self p), hne, .inl ?_, fun k hk heq => ?_⟩
    · exact Function.update_self _ _ _
    · -- An entry with this pid would make it a process that exists already.
      have hgroup := h.base.members k hk
      rw [heq] at hgroup
      exact absurd (h.base.grouped _ _ hgroup).1 hnew

/-- Minor calls and the forks of helpers. -/
theorem crew_staff (steady : Prop) (fg : Bool) :
    Crew (controlEffect steady).logic (Staff steady fg none) := by
  refine crew_of_effect (fun hc hcall h => kept_staff.minor hc hcall h) ?_ ?_
  · rintro r hs s pid u hr ⟨t, hmoves, hnew, rfl⟩ h
    rw [if_neg fun hstage => hr 0 hstage.2]
    exact (kept_staff.moves h hmoves).fork hnew (by simp)
  · rintro r hs s u ⟨t, hmoves, rfl⟩ h
    exact kept_staff.moves h hmoves

/-- The shell waits for a process of the launch other than its leader. -/
theorem Staff.reap {status : Status} (h : Staff steady fg lead hs s) (hp : p ∈ hs)
    (hfg : fg = false → lead = none) (hlife : s.kids p = .terminated status) :
    Staff steady fg lead hs (s.setLife p (.reaped status)) := by
  refine ⟨h.base.reapOwn hlife ?_, h.mode, h.job, fun q hq => (h.own q hq).congr rfl rfl rfl⟩
  rw [h.job]
  cases fg with
  | true => exact (h.own p hp).group
  | false =>
    have hgroup := (h.own p hp).group
    rw [hfg rfl] at hgroup
    exact hgroup

theorem Staff.waitOpt (h : Staff steady fg lead hs s) (hw : ∀ p ∈ w, p ∈ hs)
    (hfg : fg = false → lead = none) :
    wlp (controlEffect steady) (waitOpt w) (fun _ => Staff steady fg lead hs) s :=
  kept_staff.waitOpt h fun p hp _ _ ht hlife => ht.reap (hw p hp) hfg hlife

theorem mem_helpers_writer : ∀ p ∈ io.writer, p ∈ io.helpers := fun _ hp =>
  List.mem_append_left _ (Option.mem_toList.mpr hp)

theorem mem_helpers_reader : ∀ p ∈ io.reader, p ∈ io.helpers := fun _ hp =>
  List.mem_append_right _ (Option.mem_toList.mpr hp)

theorem Staff.undoStage (h : Staff steady fg none hs s)
    (hio : ∀ p ∈ io.helpers, p ∈ hs) :
    wlp (controlEffect steady) (undoStage io) (fun _ => Staff steady fg none hs) s := by
  refine kept_staff.calls h (minor_closeOpt _) fun _ s h => ?_
  refine kept_staff.calls h (minor_closeOpt _) fun _ s h => ?_
  refine wlp_seq (h.waitOpt (fun p hp => hio p (mem_helpers_writer p hp)) fun _ => rfl)
    fun _ s h => ?_
  exact h.waitOpt (fun p hp => hio p (mem_helpers_reader p hp)) fun _ => rfl

theorem Staff.undoStages {setups : List Setup} (h : Staff steady fg none hs s)
    (hio : ∀ p ∈ helperPids setups, p ∈ hs) :
    wlp (controlEffect steady) (undoStages setups) (fun _ => Staff steady fg none hs) s := by
  induction setups generalizing s with
  | nil => exact h
  | cons x setups ih =>
    refine wlp_seq (h.undoStage fun p hp => hio p (List.mem_append_left _ hp)) fun _ s h => ?_
    exact ih h fun p hp => hio p (List.mem_append_right _ hp)

/-! ### The leader -/

variable {l : ℕ} {ps : List ℕ} {new : Prop}

/-- The group of the job has a process that has not been reaped; in the foreground that is
its leader. -/
def Held (l : ℕ) (s : State) : Prop :=
  s.stale = false → if s.launching = true then unreaped (s.kids l) = true else Alive s l

/-- The group has no entry yet, and in the background nobody in it has stopped. -/
structure Unlisted (steady : Prop) (l : ℕ) (s : State) : Prop where
  groups : ∀ g ∈ s.tables.groups, g.pgid ≠ l
  calm : steady → s.launching = false → ¬HasStopped s l

/-- The leader has been forked and does not lead a group yet. -/
structure Born (steady : Prop) (fg : Bool) (l : ℕ) (hs : List ℕ) (s : State) : Prop where
  staff : Staff steady fg (some l) hs s
  masked : s.masked = true
  mem : l ∈ s.pids
  single : s.pgrp l = none
  life : unreaped (s.kids l) = true
  groups : ∀ g ∈ s.tables.groups, g.pgid ≠ l
  keys : ∀ k ∈ s.tables.procKeys, k.2 ≠ l
  alone : ∀ p, s.pgrp p ≠ some l

/-- The leader leads the group of the job, and the processes `ps` have joined it; if `new`,
the group has no entry yet. -/
structure Led (steady : Prop) (fg : Bool) (l : ℕ) (hs ps : List ℕ) (new : Prop) (s : State) :
    Prop where
  staff : Staff steady fg (some l) hs s
  joined : ∀ p ∈ l :: ps, s.pgrp p = some l
  held : Held l s
  unlisted : new → Unlisted steady l s

theorem Led.group (h : Led steady fg l hs ps new s) : s.pgrp l = some l :=
  h.joined l List.mem_cons_self

theorem Staff.not_tty (h : Staff steady fg (some l) hs s) (hfg : s.launching = false) :
    s.tty ≠ some q := by
  intro htty
  have hex := h.base.tty q htty
  rw [← h.mode, hfg] at hex
  cases hex

theorem Held.move (h : Held l s) (hstaff : Staff steady fg (some l) hs s)
    (hstep : MoveStep steady s m t) : Held l t := by
  intro hstale
  rw [(frame_move hstep).launching]
  have hjob := hstaff.job
  rw [← hstaff.mode] at hjob
  -- The handler marks the tables as stale if it takes the leader, or the last process.
  cases hmode : s.launching with
  | true =>
    rw [hmode] at hjob
    refine unreaped_move hstep hmode hjob (fun hs => ?_) hstale
    have hlife := h hs
    rwa [hmode] at hlife
  | false =>
    rw [hmode] at hjob
    refine alive_move hstep (by rw [hjob]; simp) (fun hs => ?_) hstale
    have hlife := h hs
    rwa [hmode] at hlife

theorem Unlisted.move (h : Unlisted steady l s) (hstaff : Staff steady fg (some l) hs s)
    (hstep : MoveStep steady s m t) : Unlisted steady l t := by
  have hframe := frame_move hstep
  refine ⟨?_, fun hsteady hfg => ?_⟩
  · rw [hframe.groups]
    exact h.groups
  · rw [hframe.launching] at hfg
    rw [hasStopped_move hsteady hstep (hstaff.not_tty hfg)]
    exact h.calm hsteady hfg

theorem Led.move (h : Led steady fg l hs ps new s) (hstep : MoveStep steady s m t) :
    Led steady fg l hs ps new t := by
  refine ⟨h.staff.move hstep, ?_, h.held.move h.staff hstep, fun hn =>
    (h.unlisted hn).move h.staff hstep⟩
  rw [(frame_move hstep).pgrp]
  exact h.joined

theorem Led.same (h : Led steady fg l hs ps new s) (hsame : Same s t) :
    Led steady fg l hs ps new t := by
  refine ⟨h.staff.same hsame, ?_, ?_, fun hn => ⟨?_, ?_⟩⟩
  · rw [hsame.pgrp]
    exact h.joined
  · intro hstale
    rw [hsame.stale] at hstale
    rw [hsame.launching, hsame.kids, hsame.alive]
    exact h.held hstale
  · rw [hsame.groups]
    exact (h.unlisted hn).groups
  · rw [hsame.launching, hsame.hasStopped]
    exact (h.unlisted hn).calm

theorem kept_led : Kept steady (Led steady fg l hs ps new) :=
  ⟨fun h hstep => h.move hstep, fun out h => h.same (same_out _ out)⟩

theorem kept_born : Kept steady (Born steady fg l hs) where
  move := by
    intro s m t h hstep
    have hframe := frame_move hstep
    refine ⟨h.staff.move hstep, hframe.masked.trans h.masked, ?_, ?_, ?_, ?_, ?_, ?_⟩
    · rw [hframe.pids]
      exact h.mem
    · rw [hframe.pgrp]
      exact h.single
    · rw [unreaped_move_of_masked hstep h.masked]
      exact h.life
    · rw [hframe.groups]
      exact h.groups
    · rw [hframe.keys]
      exact h.keys
    · rw [hframe.pgrp]
      exact h.alone
  out := fun out h => ⟨h.staff.same (same_out _ out), h.masked, h.mem, h.single, h.life, h.groups,
    h.keys, h.alone⟩

/-- The invariant says less about a group that is exempt. -/
theorem Base.exempt (h : Base steady none s) (ex : Option ℕ) : Base steady ex s :=
  ⟨h.alive, fun hsteady g hg hactive _ => h.flags hsteady g hg hactive (by simp),
    fun q hq => (by cases h.tty q hq), h.free, h.status, h.listed, h.nodup, h.grouped, h.members⟩

/-- The first stage is forked while the signal is blocked. -/
theorem Staff.born (h : Staff steady fg none hs s) (hmask : s.masked = true) (hnew : l ∉ s.pids) :
    Born steady fg l hs { s with
      pids := s.pids ++ [l]
      kids := Function.update s.kids l .running
      pgrp := Function.update s.pgrp l none
      fgJob := if s.launching = true ∧ Role.stage 0 = .stage 0 then some l else s.fgJob } := by
  have hnone : s.fgJob = none := by
    rw [h.job]
    cases fg <;> rfl
  have hbase : Base steady none s := by
    have hbase := h.base
    cases fg <;> exact hbase
  have hkeys : ∀ k ∈ s.tables.procKeys, k.2 ≠ l := by
    rintro k hk rfl
    exact hnew (h.base.grouped _ _ (h.base.members k hk)).1
  refine ⟨⟨(hbase.exempt _).fork hnew (.inl hnone), h.mode, ?_, fun p hp => ?_⟩, hmask,
    List.mem_append_right _ (List.mem_singleton_self l), Function.update_self _ _ _, ?_, ?_, hkeys,
    ?_⟩
  · rw [← h.mode]
    cases s.launching with
    | true => rfl
    | false => exact hnone
  · have hown := h.own p hp
    have hne : p ≠ l := by
      rintro rfl
      exact hnew hown.mem
    refine ⟨List.mem_append_left _ hown.mem, fun heq => hne (Option.some.inj heq).symm, .inl ?_, ?_⟩
    · have hgroup : s.pgrp p = none := by simpa using hown.group
      exact (Function.update_of_ne hne _ _).trans hgroup
    · intro k hk heq
      cases hown.keys k hk heq
  · change unreaped (Function.update s.kids l .running l) = true
    rw [Function.update_self]
    rfl
  · rintro g hg rfl
    exact hnew (h.base.listed g hg)
  · intro p hp
    by_cases heq : p = l
    · subst heq
      change Function.update s.pgrp p none p = some p at hp
      rw [Function.update_self] at hp
      cases hp
    · have hold : s.pgrp p = some l := (Function.update_of_ne heq _ _).symm.trans hp
      exact hnew (h.base.grouped p l hold).2

/-- It becomes the leader of a group. -/
theorem Born.led (h : Born steady fg l hs s) :
    Led steady fg l hs [] True (s.book (.setpgid l (some l))) := by
  have hgroup : Function.update s.pgrp l (some l) l = some l := Function.update_self _ _ _
  refine ⟨⟨?_, h.staff.mode, h.staff.job, fun p hp => ?_⟩, ?_, ?_, fun _ => ⟨h.groups, ?_⟩⟩
  · exact h.staff.base.setpgid h.mem h.mem (.inl h.single) fun k hk heq => absurd heq (h.keys k hk)
  · have hown := h.staff.own p hp
    have hne : p ≠ l := fun heq => hown.ne (congrArg some heq.symm)
    refine ⟨hown.mem, hown.ne, ?_, hown.keys⟩
    change Function.update s.pgrp l (some l) p = none ∨ Function.update s.pgrp l (some l) p = some l
    rw [Function.update_of_ne hne]
    exact hown.group
  · intro p hp
    rw [List.mem_singleton.mp hp]
    exact hgroup
  · intro _
    split
    · exact h.life
    · exact ⟨l, h.mem, hgroup, h.life⟩
  · -- Nobody else is in the group, and the leader could not stop so far.
    rintro hsteady - ⟨p, hp, hpg, hstop⟩
    change Function.update s.pgrp l (some l) p = some l at hpg
    by_cases heq : p = l
    · subst heq
      exact h.staff.base.free hsteady p hp h.single hstop
    · rw [Function.update_of_ne heq] at hpg
      exact h.alone p hpg

/-- A process of the launch joins the group. -/
theorem Led.join (h : Led steady fg l hs ps new s) (hp : p ∈ hs) :
    Led steady fg l hs ps new (s.book (.setpgid p (some l))) := by
  have hown := h.staff.own p hp
  have hne : l ≠ p := fun heq => hown.ne (congrArg some heq)
  have hkeys : ∀ k ∈ s.tables.procKeys, k.2 = p → k.1 = l := fun k hk heq =>
    Option.some.inj (hown.keys k hk heq)
  have hmono : ∀ q, s.pgrp q = some l → Function.update s.pgrp p (some l) q = some l := by
    intro q hq
    by_cases heq : q = p
    · subst heq
      exact Function.update_self _ _ _
    · exact (Function.update_of_ne heq _ _).trans hq
  refine ⟨⟨?_, h.staff.mode, h.staff.job, fun q hq => ?_⟩, fun q hq =>
    hmono q (h.joined q hq), ?_, fun hn =>
    ⟨(h.unlisted hn).groups, ?_⟩⟩
  · exact h.staff.base.setpgid hown.mem (h.staff.base.grouped l l h.group).1 hown.group hkeys
  · have hownq := h.staff.own q hq
    refine ⟨hownq.mem, hownq.ne, ?_, hownq.keys⟩
    change Function.update s.pgrp p (some l) q = none ∨ Function.update s.pgrp p (some l) q = some l
    by_cases heq : q = p
    · subst heq
      exact .inr (Function.update_self _ _ _)
    · rw [Function.update_of_ne heq]
      exact hownq.group
  · intro hstale
    have hheld := h.held hstale
    change if s.launching = true then unreaped (s.kids l) = true else Alive (s.book _) l
    split at hheld
    · rw [if_pos ‹_›]
      exact hheld
    · rw [if_neg ‹_›]
      obtain ⟨q, hq, hqg, hlife⟩ := hheld
      exact ⟨q, hq, hmono q hqg, hlife⟩
  · rintro hsteady hfg ⟨q, hq, hqg, hstop⟩
    refine (h.unlisted hn).calm hsteady hfg ⟨q, hq, ?_, hstop⟩
    change Function.update s.pgrp p (some l) q = some l at hqg
    by_cases heq : q = p
    · subst heq
      rcases hown.group with hnone | hsome
      · exact absurd hstop (h.staff.base.free hsteady q hq hnone)
      · exact hsome
    · rwa [Function.update_of_ne heq] at hqg

/-- A process of the group is registered. -/
theorem Led.addMember (h : Led steady fg l hs ps new s) (hp : s.pgrp p = some l) :
    Led steady fg l hs ps new (s.book (.groupAddMember l p name)) := by
  have hgroups : (Jobs.groupAddMember s.tables l p name).groups = s.tables.groups := by
    unfold Jobs.groupAddMember
    split <;> rfl
  refine ⟨⟨h.staff.base.groupAddMember hp, h.staff.mode, h.staff.job, fun q hq => ?_⟩, h.joined,
    h.held, fun hn => ⟨?_, (h.unlisted hn).calm⟩⟩
  · have hown := h.staff.own q hq
    refine ⟨hown.mem, hown.ne, hown.group, fun k hk heq => ?_⟩
    change k ∈ (Jobs.groupAddMember s.tables l p name).procKeys at hk
    rw [procKeys_groupAddMember] at hk
    split at hk
    · rcases List.mem_append.mp hk with hk | hk
      · exact hown.keys k hk heq
      · rw [List.mem_singleton.mp hk]
    · exact hown.keys k hk heq
  · change ∀ g ∈ (Jobs.groupAddMember s.tables l p name).groups, g.pgid ≠ l
    rw [hgroups]
    exact (h.unlisted hn).groups

/-- The group gets its entry. -/
theorem Led.groupAdd (h : Led steady fg l hs ps True s) :
    Led steady fg l hs ps False (s.book (.groupAdd l name)) := by
  have hkeys : (Jobs.groupAdd s.tables l name).procKeys = s.tables.procKeys := by
    unfold Jobs.groupAdd
    split <;> rfl
  have hunlisted := h.unlisted trivial
  refine ⟨⟨h.staff.base.groupAdd (h.staff.base.grouped l l h.group).1 hunlisted.groups ?_ ?_,
    h.staff.mode, h.staff.job, fun p hp => (h.staff.own p hp).congr rfl rfl hkeys⟩, h.joined,
    h.held, False.elim⟩
  · intro hstale hfg
    have hheld := h.held hstale
    rw [h.staff.job, ← h.staff.mode] at hfg
    split at hheld
    · rename_i hmode
      rw [hmode] at hfg
      exact absurd rfl hfg
    · exact hheld
  · intro hsteady hex
    refine hunlisted.calm hsteady ?_
    rw [h.staff.mode]
    cases fg with
    | true => exact absurd rfl hex
    | false => rfl

theorem Led.addHelper (h : Led steady fg l hs ps new s)
    (hw : ∀ p ∈ w, p ∈ hs) :
    wlp (controlEffect steady) (addHelper l w name) (fun _ => Led steady fg l hs ps new) s := by
  cases w with
  | none => exact h
  | some p =>
    have hkept : Kept steady fun t => Led steady fg l hs ps new t ∧ t.pgrp p = some l := by
      refine ⟨fun h hstep => ⟨h.1.move hstep, ?_⟩, fun out h => ⟨h.1.same (same_out _ out), h.2⟩⟩
      rw [(frame_move hstep).pgrp]
      exact h.2
    refine wlp_seq (kept_led.setpgid hkept h fun t ht => ⟨ht.join (hw p rfl), ?_⟩) fun _ t ht => ?_
    · exact Function.update_self _ _ _
    · exact wlp_bind.mpr (hkept.book ht fun _ t ht => ht.1.addMember ht.2)

theorem Led.addHelpers (h : Led steady fg l hs ps new s)
    (hio : ∀ p ∈ io.helpers, p ∈ hs) :
    wlp (controlEffect steady) (addHelpers l io) (fun _ => Led steady fg l hs ps new) s := by
  refine wlp_seq (h.addHelper fun p hp => hio p (mem_helpers_writer p hp)) fun _ t ht => ?_
  exact ht.addHelper fun p hp => hio p (mem_helpers_reader p hp)

/-! ### Further forks -/

theorem Staff.mono {hs' : List ℕ} (h : Staff steady fg lead hs s) (hsub : ∀ p ∈ hs', p ∈ hs) :
    Staff steady fg lead hs' s :=
  ⟨h.base, h.mode, h.job, fun p hp => h.own p (hsub p hp)⟩

theorem Led.mono {hs' : List ℕ} (h : Led steady fg l hs ps new s) (hsub : ∀ p ∈ hs', p ∈ hs) :
    Led steady fg l hs' ps new s :=
  ⟨h.staff.mono hsub, h.joined, h.held, h.unlisted⟩

/-- A process that has just been forked does not change what is known about the group. -/
theorem Led.fork (h : Led steady fg l hs ps new s) (hnew : pid ∉ s.pids) :
    Led steady fg l (hs ++ [pid]) ps new { s with
      pids := s.pids ++ [pid]
      kids := Function.update s.kids pid .running
      pgrp := Function.update s.pgrp pid none } := by
  have hne : ∀ p q, s.pgrp p = some q → p ≠ pid := fun p q hp heq =>
    hnew (heq ▸ (h.staff.base.grouped p q hp).1)
  have hlead := hne l l h.group
  refine ⟨h.staff.fork hnew fun heq => hlead (Option.some.inj heq), fun p hp => ?_, ?_, fun hn =>
    ⟨(h.unlisted hn).groups, ?_⟩⟩
  · have hold := h.joined p hp
    exact (Function.update_of_ne (hne p l hold) _ _).trans hold
  · intro hstale
    have hheld := h.held hstale
    change if s.launching = true then unreaped (Function.update s.kids pid .running l) = true else _
    rw [Function.update_of_ne hlead]
    split at hheld
    · rw [if_pos ‹_›]
      exact hheld
    · rw [if_neg ‹_›]
      obtain ⟨q, hq, hqg, hlife⟩ := hheld
      have hqne := hne q l hqg
      refine ⟨q, List.mem_append_left _ hq, (Function.update_of_ne hqne _ _).trans hqg, ?_⟩
      change unreaped (Function.update s.kids pid .running q) = true
      rw [Function.update_of_ne hqne]
      exact hlife
  · rintro hsteady hfg ⟨q, -, hqg, hstop⟩
    change Function.update s.pgrp pid none q = some l at hqg
    change Function.update s.kids pid .running q = .stopped at hstop
    by_cases heq : q = pid
    · subst heq
      rw [Function.update_self] at hqg
      cases hqg
    · rw [Function.update_of_ne heq] at hqg hstop
      exact (h.unlisted hn).calm hsteady hfg
        ⟨q, (h.staff.base.grouped q l hqg).1, hqg, hstop⟩

end Control
end RuShell
