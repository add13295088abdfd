import RuShell.Lib.PosixSound

/-!
# Waiting for each other

When a process is stuck, and when it can run to its end.

## Main definitions

* `Stuck lim w t c` — process `c` reads from an empty pipe whose write end is held
  only by processes that wait for `c`.
* `Outcome.Plain` — a call that has neither run out of something nor been interrupted.

## Main results

* `step_frame` — a step changes no other process.
* `exists_run_dead` — a process that stops only to write where there is room, or to read
  what is left, can run to its end on its own.
* `exists_run_settled` — everybody finishes who can.
* `stuck_of_no_step` — if nobody but `c` can move, `c` is stuck.
-/

namespace RuShell
namespace Lib
namespace Posix

variable {I : Iface} {α : Type} [DecidableEq I.Tag] [DecidableEq I.Name] {lim : Limits}
  {faults exts : Prop} {w w' : World I α} {t : I.Tag} {as : List (Act I)} {q : Process I α}
  {a : Act I} {j : ℕ}

/-- The process `c` is blocked in `read` on the pipe `t`: the pipe is empty and its
write end is held.  Every holder other than `c` can move only after `c` has. -/
structure Stuck (lim : Limits) (w : World I α) (t : I.Tag) (c : ℕ) : Prop where
  reading : ∃ p fd k, w.procs[c]? = some p ∧ p.code = .running (.call (.readByte fd) k) ∧
    p.fds fd = some (.read t)
  empty : w.fill t = 0
  held : w.held lim (.write t) = true
  waits : ∀ h q fd, w.procs[h]? = some q → q.fds fd = some (.write t) → h ≠ c →
    ∀ as w', Run (Steps lim True True) w as w' → (∀ a ∈ as, a.pid ≠ c) → ∀ a ∈ as, a.pid ≠ h

/-- The call has not run out of something and has not been interrupted. -/
def Outcome.Plain : Outcome → Prop
  | .fault | .interrupted _ => False
  | _ => True

namespace Outcome.Plain

variable {o : Outcome}

theorem ne_interrupted (h : o.Plain) (s : Status) : o ≠ .interrupted s := by
  rintro rfl
  exact h

theorem of_fault (h : o.Plain) {P : Prop} (ho : o = .fault) : P := (by
  subst ho
  exact h.elim)

end Outcome.Plain

omit [DecidableEq I.Tag] [DecidableEq I.Name] in
theorem allowed_true (a : Act I) : a.Allowed True True := by
  unfold Act.Allowed
  split <;> trivial

variable {pid fd : ℕ} {p : Process I α}

omit [DecidableEq I.Tag] [DecidableEq I.Name] in
theorem allowed_call {o : Outcome} (ho : o = .fault → faults) :
    (Act.call (I := I) pid o).Allowed faults exts := by
  cases o with
  | fault => exact ho rfl
  | _ => trivial

/-- A process keeps its role, and a step changes only the process that makes it. -/
theorem step_at (h : step lim w a = some w') (hq : w.procs[j]? = some q) :
    ∃ q', w'.procs[j]? = some q' ∧ q'.role = q.role ∧ (j ≠ a.pid → q' = q) := by
  have hset : ∀ {pid : ℕ} {p} (p' : Process I α), w.procs[pid]? = some p → p'.role = p.role →
      ∃ q', (w.procs.set pid p')[j]? = some q' ∧ q'.role = q.role ∧ (j ≠ pid → q' = q) := by
    intro pid p p' hp hrole
    by_cases hj : pid = j
    · subst hj
      rw [hp] at hq
      cases hq
      exact ⟨p', List.getElem?_set_self (List.getElem?_eq_some_iff.mp hp).1, hrole, absurd rfl⟩
    · exact ⟨q, by rw [List.getElem?_set_ne hj, hq], rfl, fun _ => rfl⟩
  cases step_move h with
  | call hp hcode hnext hfill | feed hp hcode hfd | exec hp hcode | kill hp hcode
  | forkFail hp hcode | extExit hp hcode | extClose hp hcode => exact hset _ hp rfl
  | drain hp hcode hfill | extConsume hfill | extProduce hp hcode hfd =>
    exact ⟨q, hq, rfl, fun _ => rfl⟩
  | @fork pid p r k hp hcode =>
    obtain ⟨q', hq', hrest⟩ := hset { p with code := .running (k (.parent w.procs.length)) } hp rfl
    exact ⟨q', (List.getElem?_append_left (List.getElem?_eq_some_iff.mp hq').1).trans hq', hrest⟩

theorem step_frame (h : step lim w a = some w') (hj : j ≠ a.pid)
    (hq : w.procs[j]? = some q) : w'.procs[j]? = some q := by
  obtain ⟨q', hq', -, hsame⟩ := step_at h hq
  rw [hq', hsame hj]

theorem step_role (h : step lim w a = some w')
    (hq : w.procs[j]? = some q) : ∃ q', w'.procs[j]? = some q' ∧ q'.role = q.role := by
  obtain ⟨q', hq', hrole, -⟩ := step_at h hq
  exact ⟨q', hq', hrole⟩

/-- Every step is a step of the system in which anything can go wrong. -/
theorem run_true (h : Run (Steps lim faults exts) w as w') :
    Run (Steps lim True True) w as w' :=
  h.mono fun _ a _ hstep => ⟨allowed_true a, hstep.2⟩

theorem run_frame (h : Run (Steps lim faults exts) w as w')
    (hj : ∀ a ∈ as, a.pid ≠ j) (hq : w.procs[j]? = some q) :
    w'.procs[j]? = some q := by
  induction h with
  | nil _ => exact hq
  | cons hstep _ ih =>
    refine ih (fun a ha => hj a (List.mem_cons_of_mem _ ha)) ?_
    exact step_frame hstep.2 (hj _ List.mem_cons_self).symm hq

theorem run_role (h : Run (Steps lim faults exts) w as w')
    (hq : w.procs[j]? = some q) :
    ∃ q', w'.procs[j]? = some q' ∧ q'.role = q.role := by
  induction h generalizing q with
  | nil _ => exact ⟨q, hq, rfl⟩
  | cons hstep _ ih =>
    obtain ⟨q₁, hq₁, hrole₁⟩ := step_role hstep.2 hq
    obtain ⟨q₂, hq₂, hrole₂⟩ := ih hq₁
    exact ⟨q₂, hq₂, hrole₂.trans hrole₁⟩

/-! ### Running to the end -/

/-- `pid` alone can get to a state in which it is dead. -/
def CanDie (lim : Limits) (faults : Prop) (w : World I α) (pid : ℕ) : Prop :=
  ∃ as w' q, Run (Steps lim faults False) w as w' ∧ (∀ a ∈ as, a.pid = pid) ∧ as ≠ [] ∧
    w'.procs[pid]? = some q ∧ q.code = .dead

theorem CanDie.of_step {o : Outcome} (ho : o = .fault → faults)
    (h : step lim w (.call pid o) = some w') (hrest : CanDie lim faults w' pid) :
    CanDie lim faults w pid := by
  obtain ⟨as, w₂, q, hrun, has, -, hq⟩ := hrest
  refine ⟨.call pid o :: as, w₂, q, .cons ⟨allowed_call ho, h⟩ hrun, ?_, List.cons_ne_nil _ _, hq⟩
  intro a ha
  rcases List.mem_cons.mp ha with rfl | ha
  · rfl
  · exact has a ha

theorem CanDie.of_kill (hp : w.procs[pid]? = some p)
    (h : step lim w (.call pid .ok) = some (w.set pid p.kill)) : CanDie lim faults w pid := by
  refine ⟨[.call pid .ok], _, p.kill, .single ⟨trivial, h⟩, by simp [Act.pid], by simp, ?_, rfl⟩
  exact List.getElem?_set_self (List.getElem?_eq_some_iff.mp hp).1

section RunToEnd

variable {J : World I α → Prop}

/-- The process does not have to wait at the call: it writes where there is room or
nobody to read, or it reads where nobody can write any more. -/
def Goes (lim : Limits) (faults : Prop) (w : World I α) (p : Process I α) : Call I → Prop
  | .feed fd n => 0 < n → ∀ t, p.fds fd = some (.write t) → w.held lim (.read t) = true →
      w.fill t < lim.cap
  | .drain fd => ∀ t, p.fds fd = some (.read t) → w.held lim (.write t) = false
  | .pipe _ => faults
  | c => c.stops = false

/-- What has to be known of a process for it to be able to run to its end: its own steps
keep `J`, it does not return, and it does not have to wait.  Unless the system may run out
of something it creates no pipes and no processes. -/
structure RunsOut (lim : Limits) (faults : Prop) (pid : ℕ) (J : World I α → Prop) : Prop where
  step : ∀ w o w', J w → Posix.step lim w (.call pid o) = some w' → J w'
  exits : ∀ w p x, J w → w.procs[pid]? = some p → p.code ≠ .running (.pure x)
  forks : ∀ w p r k, J w → w.procs[pid]? = some p → p.code = .running (.fork r k) → faults
  goes : ∀ w p c k, J w → w.procs[pid]? = some p → p.code = .running (.call c k) →
    Goes lim faults w p c

/-- The calls that only touch the caller's own table. -/
theorem step_local {c : Call I} {k : c.Ret → Prog I α} {o : Outcome} {x : c.Ret} {f : Fds I}
    (hp : w.procs[pid]? = some p) (hcode : p.code = .running (.call c k))
    (hstep : w.callStep lim pid p c k o = some (w.set pid ⟨p.role, f, .running (k x)⟩)) :
    step lim w (.call pid o) = some (w.set pid ⟨p.role, f, .running (k x)⟩) := by
  simp only [step, hp, hcode]
  exact hstep

omit [DecidableEq I.Tag] [DecidableEq I.Name] in
theorem getElem?_set_pid {q : Process I α} (hp : w.procs[pid]? = some p) :
    (w.set pid q).procs[pid]? = some q :=
  List.getElem?_set_self (List.getElem?_eq_some_iff.mp hp).1

section Stops

variable {c : Call I} {k : c.Ret → Prog I α} {x : c.Ret}

/-- The call is over: go on with the rest of the program. -/
theorem canDie_over (hJ : RunsOut lim faults pid J)
    (hk : ∀ {w : World I α} {p : Process I α}, J w → w.procs[pid]? = some p →
      p.code = .running (k x) → CanDie lim faults w pid)
    {o : Outcome} {f : Fds I}
    (ho : o = .fault → faults) (hw : J w) (hp : w.procs[pid]? = some p)
    (hcode : p.code = .running (.call c k))
    (hstep : w.callStep lim pid p c k o = some (w.set pid ⟨p.role, f, .running (k x)⟩)) :
    CanDie lim faults w pid := by
  have h := step_local hp hcode hstep
  exact .of_step ho h (hk (hJ.step _ _ _ hw h) (getElem?_set_pid hp) rfl)

end Stops

theorem canDie_feed (hJ : RunsOut lim faults pid J) {k : Unit → Prog I α}
    (hk : ∀ {w : World I α} {p : Process I α}, J w → w.procs[pid]? = some p →
      p.code = .running (k ()) → CanDie lim faults w pid) (n : ℕ) (hw : J w)
    (hp : w.procs[pid]? = some p) (hcode : p.code = .running (.call (.feed fd n) k)) :
    CanDie lim faults w pid := by
  induction n generalizing w p with
  | zero => exact canDie_over (c := .feed fd 0) (x := ()) (o := .ok) hJ hk nofun hw hp hcode rfl
  | succ n ih =>
    have hover : w.callStep lim pid p (.feed fd (n + 1)) k .ok =
        some (w.set pid { p with code := .running (k ()) }) → CanDie lim faults w pid :=
      canDie_over (c := .feed fd (n + 1)) (x := ()) hJ hk nofun hw hp hcode
    cases hfd : p.fds fd with
    | none => exact hover (by simp only [World.callStep, hfd])
    | some e =>
      cases e with
      | read t | file n => exact hover (by simp only [World.callStep, hfd])
      | write t =>
        by_cases hheld : w.held lim (.read t) = true
        · have hroom : w.fill t < lim.cap :=
            hJ.goes w p (.feed fd (n + 1)) k hw hp hcode (Nat.succ_pos n) t hfd hheld
          have h : step lim w (.call pid .ok) = some ((w.set pid
              { p with code := .running (.call (.feed fd n) k) }).setFill t (w.fill t + 1)) := by
            simp only [step, hp, hcode, World.callStep, hfd, hheld, hroom, if_true]
          exact .of_step (o := .ok) nofun h (ih (hJ.step _ _ _ hw h) (getElem?_set_pid hp) rfl)
        · refine .of_kill hp ?_
          simp only [step, hp, hcode, World.callStep, hfd, if_neg hheld]

theorem canDie_drain (hJ : RunsOut lim faults pid J) {k : Unit → Prog I α}
    (hk : ∀ {w : World I α} {p : Process I α}, J w → w.procs[pid]? = some p →
      p.code = .running (k ()) → CanDie lim faults w pid) (hw : J w)
    (hp : w.procs[pid]? = some p) (hcode : p.code = .running (.call (.drain fd) k)) :
    CanDie lim faults w pid := by
  have hover : ∀ {w : World I α}, J w → w.procs[pid]? = some p →
      w.callStep lim pid p (.drain fd) k .ok =
        some (w.set pid { p with code := .running (k ()) }) → CanDie lim faults w pid := by
    intro w hw hp hstep
    exact canDie_over (c := .drain fd) (x := ()) (o := .ok) hJ hk nofun hw hp hcode hstep
  have hempty : ∀ {w : World I α} {t : I.Tag}, J w → w.procs[pid]? = some p →
      p.fds fd = some (.read t) → w.fill t = 0 → CanDie lim faults w pid := by
    intro w t hw hp hfd hfill
    have hfree : w.held lim (.write t) = false := hJ.goes w p (.drain fd) k hw hp hcode t hfd
    refine hover hw hp ?_
    simp only [World.callStep, hfd, hfill, hfree, lt_irrefl, if_false]
    rfl
  cases hfd : p.fds fd with
  | none => exact hover hw hp (by simp only [World.callStep, hfd])
  | some e =>
    cases e with
    | write t | file n => exact hover hw hp (by simp only [World.callStep, hfd])
    | read t =>
      rcases Nat.eq_zero_or_pos (w.fill t) with hfill | hfill
      · exact hempty hw hp hfd hfill
      -- what is in the pipe is read first
      · have h : step lim w (.call pid .ok) = some (w.setFill t 0) := by
          simp only [step, hp, hcode, World.callStep, hfd, if_pos hfill]
        exact .of_step (o := .ok) nofun h
          (hempty (hJ.step _ _ _ hw h) hp hfd (Function.update_self ..))

/-- A process that does not have to wait can run to its end on its own. -/
theorem exists_run_dead (hJ : RunsOut lim faults pid J) {prog : Prog I α}
    (hw : J w) (hp : w.procs[pid]? = some p) (hcode : p.code = .running prog) :
    CanDie lim faults w pid := by
  induction prog generalizing w p with
  | pure x => exact absurd hcode (hJ.exits w p x hw hp)
  | fork r k ih =>
    have h : step lim w (.call pid .fault) =
        some (w.set pid { p with code := .running (k .failed) }) := by
      simp only [step, hp, hcode]
    exact .of_step (fun _ => hJ.forks w p r k hw hp hcode) h
      (ih _ (hJ.step _ _ _ hw h) (getElem?_set_pid hp) rfl)
  | call c k ih =>
    have hgo : ∀ o x f, (o = .fault → faults) → w.callStep lim pid p c k o =
        some (w.set pid ⟨p.role, f, .running (k x)⟩) → CanDie lim faults w pid := by
      intro o x f ho hstep
      exact canDie_over hJ (fun hw hp hcode => ih x hw hp hcode) ho hw hp hcode hstep
    have hplain : ∀ o x f, o.Plain → w.callStep lim pid p c k o =
        some (w.set pid ⟨p.role, f, .running (k x)⟩) → CanDie lim faults w pid := by
      intro o x f ho hstep
      exact hgo o x f ho.of_fault hstep
    have hgoes := hJ.goes w p c k hw hp hcode
    cases c with
    | pipe t => exact hgo .fault none p.fds (fun _ => hgoes) rfl
    | openFile n => exact hplain .refused none p.fds trivial rfl
    | close fd | dup2 src dst => exact hplain .ok () _ trivial rfl
    | book b => exact hplain (.value 0) (0 : ℤ) p.fds trivial rfl
    | exit n =>
      refine .of_kill hp ?_
      simp only [step, hp, hcode, World.callStep]
    | feed fd n => exact canDie_feed hJ (fun hw hp hcode => ih () hw hp hcode) n hw hp hcode
    | drain fd => exact canDie_drain hJ (fun hw hp hcode => ih () hw hp hcode) hw hp hcode
    | wait q u | readByte fd | exec n => cases hgoes

end RunToEnd

/-! ### Letting everybody finish who can -/

omit [DecidableEq I.Tag] [DecidableEq I.Name] in
theorem isDead_iff :
    w.isDead pid = true ↔ ∃ p, w.procs[pid]? = some p ∧ p.code = .dead := by
  unfold World.isDead
  split
  · rename_i r f hp
    exact ⟨fun _ => ⟨_, hp, rfl⟩, fun _ => rfl⟩
  · rename_i hno
    constructor
    · nofun
    · rintro ⟨⟨r, f, code⟩, hp, rfl⟩
      exact (hno r f hp).elim

/-- A dead process makes no step. -/
theorem step_of_dead (h : w.isDead a.pid = true) : step lim w a = none := by
  obtain ⟨p, hp, hcode⟩ := isDead_iff.mp h
  cases a with
  | call pid o | ext pid x =>
    have hp : w.procs[pid]? = some p := hp
    simp only [step, hp, hcode]

/-- A process that is dead stays dead. -/
theorem isDead_run (h : Run (Steps lim faults exts) w as w')
    (hdead : w.isDead pid = true) : w'.isDead pid = true := by
  refine Run.invariant (I := fun w => w.isDead pid = true) (fun w a w' hdead hstep => ?_) h hdead
  by_cases ha : pid = a.pid
  · rw [ha] at hdead
    have hnone : step lim w a = none := step_of_dead hdead
    rw [hstep.2] at hnone
    cases hnone
  · obtain ⟨p, hp, hcode⟩ := isDead_iff.mp hdead
    exact isDead_iff.mpr ⟨p, step_frame hstep.2 ha hp, hcode⟩

/-- A process that can still die is not dead. -/
theorem CanDie.isDead_eq_false (h : CanDie lim faults w pid) : w.isDead pid = false := by
  obtain ⟨as, w', q, hrun, has, hne, -⟩ := h
  cases hrun with
  | nil _ => exact absurd rfl hne
  | @cons _ _ _ a _ hstep _ =>
    by_contra hdead
    rw [Bool.not_eq_false, ← has a List.mem_cons_self] at hdead
    have hnone : step lim w a = none := step_of_dead hdead
    rw [hstep.2] at hnone
    cases hnone

/-- Some processes run until none of them can get to its end on its own. -/
theorem exists_run_settled (S : Finset ℕ) (w : World I α) :
    ∃ as w', Run (Steps lim faults False) w as w' ∧ (∀ a ∈ as, a.pid ∈ S) ∧
      ∀ pid ∈ S, ¬ CanDie lim faults w' pid := by
  -- by induction on how many of them are not dead
  induction hn : (S.filter fun pid => w.isDead pid = false).card using Nat.strong_induction_on
    generalizing w with
  | _ n ih =>
    by_cases hall : ∀ pid ∈ S, ¬ CanDie lim faults w pid
    · exact ⟨[], w, .nil w, by simp, hall⟩
    push Not at hall
    obtain ⟨pid, hpid, hcan⟩ := hall
    have halive := hcan.isDead_eq_false
    obtain ⟨as, w₁, q, hrun, has, -, hq, hcode⟩ := hcan
    have hdead : w₁.isDead pid = true := isDead_iff.mpr ⟨q, hq, hcode⟩
    have hsub : (S.filter fun pid => w₁.isDead pid = false) ⊂
        S.filter fun pid => w.isDead pid = false := by
      refine Finset.ssubset_iff_of_subset (fun i hi => ?_) |>.mpr ⟨pid, ?_, ?_⟩
      · rw [Finset.mem_filter] at hi ⊢
        refine ⟨hi.1, ?_⟩
        by_contra hi'
        rw [Bool.not_eq_false] at hi'
        rw [isDead_run hrun hi'] at hi
        cases hi.2
      · exact Finset.mem_filter.mpr ⟨hpid, halive⟩
      · rw [Finset.mem_filter, hdead]
        exact fun h => absurd h.2 nofun
    obtain ⟨as', w₂, hrun', has', hno⟩ := ih _ (hn ▸ Finset.card_lt_card hsub) w₁ rfl
    refine ⟨as ++ as', w₂, hrun.append hrun', fun a ha => ?_, hno⟩
    rcases List.mem_append.mp ha with ha | ha
    · rw [has a ha]
      exact hpid
    · exact has' a ha

/-! ### Being stuck -/

theorem exists_holder {e : End I} (h : w.held lim e = true) :
    ∃ (i : ℕ) (p : Process I α) (fd : ℕ), w.procs[i]? = some p ∧ fd < lim.openMax ∧
      p.fds fd = some e := by
  simp only [World.held, List.any_eq_true, decide_eq_true_eq] at h
  obtain ⟨p, hp, fd, hfd, he⟩ := h
  obtain ⟨i, hi⟩ := List.mem_iff_getElem?.mp hp
  exact ⟨i, p, fd, hi, List.mem_range.mp hfd, he⟩

/-- The process waits at a call that does not return now; a handler may still interrupt
it. -/
def Waits (lim : Limits) (w : World I α) (pid : ℕ) : Prop :=
  ∀ a : Act I, a.pid = pid → (∀ s, a ≠ .call pid (.interrupted s)) → step lim w a = none

/-- A `read` from an empty pipe waits as long as the write end is held. -/
theorem step_blocked {k : Unit → Prog I α} (hp : w.procs[pid]? = some p)
    (hcode : p.code = .running (.call (.readByte fd) k)) (hfd : p.fds fd = some (.read t))
    (hempty : w.fill t = 0) (hheld : w.held lim (.write t) = true) (a : Act I) (ha : a.pid = pid) :
    step lim w a = none := by
  cases a with
  | call pid' o =>
    obtain rfl : pid' = pid := ha
    cases o with
    | ok => simp [step, hp, hcode, World.callStep, hfd, hempty, hheld]
    | _ => simp only [step, hp, hcode, World.callStep, localStep]
  | ext pid' x =>
    obtain rfl : pid' = pid := ha
    simp only [step, hp, hcode]

/-- A process that reads until end of file waits likewise. -/
theorem waits_drain {k : Unit → Prog I α} (hp : w.procs[pid]? = some p)
    (hcode : p.code = .running (.call (.drain fd) k)) (hfd : p.fds fd = some (.read t))
    (hempty : w.fill t = 0) (hheld : w.held lim (.write t) = true) : Waits lim w pid := by
  rintro (⟨pid', o⟩ | ⟨pid', x⟩) ha -
  · obtain rfl : pid' = pid := ha
    cases o with
    | ok => simp [step, hp, hcode, World.callStep, hfd, hempty, hheld]
    | _ => simp only [step, hp, hcode, World.callStep, localStep]
  · obtain rfl : pid' = pid := ha
    simp only [step, hp, hcode]

/-- A `waitpid` waits as long as the child is not dead. -/
theorem waits_wait {q : ℕ} {k : Status → Prog I α} (hp : w.procs[pid]? = some p)
    (hcode : p.code = .running (.call (.wait q false) k)) (hdead : w.isDead q = false) :
    Waits lim w pid := by
  rintro (⟨pid', o⟩ | ⟨pid', x⟩) ha hint
  · obtain rfl : pid' = pid := ha
    cases o with
    | interrupted s => exact absurd rfl (hint s)
    | status s => simp [step, hp, hcode, World.callStep, hdead]
    | _ => simp only [step, hp, hcode, World.callStep, localStep]
  · obtain rfl : pid' = pid := ha
    simp only [step, hp, hcode]

/-- There is no such process. -/
theorem step_absent (h : w.procs[a.pid]? = none) : step lim w a = none := by
  cases a with
  | call pid o | ext pid x =>
    change w.procs[pid]? = none at h
    simp only [step, h]

/-- A process that has returned does nothing. -/
theorem step_returned {x : α} (hp : w.procs[pid]? = some p) (hcode : p.code = .running (.pure x))
    (a : Act I) (ha : a.pid = pid) : step lim w a = none := by
  cases a with
  | call pid' o | ext pid' x =>
    obtain rfl : pid' = pid := ha
    simp only [step, hp, hcode]

/-- If nobody else can move, the reader is stuck. -/
theorem stuck_of_no_step {c : ℕ} {k : Unit → Prog I α} (hp : w.procs[c]? = some p)
    (hcode : p.code = .running (.call (.readByte fd) k)) (hfd : p.fds fd = some (.read t))
    (hempty : w.fill t = 0) (hheld : w.held lim (.write t) = true)
    (hno : ∀ a : Act I, a.pid ≠ c → step lim w a = none) :
    Stuck lim w t c := by
  refine ⟨⟨p, fd, k, hp, hcode, hfd⟩, hempty, hheld, ?_⟩
  intro h q fd' _ _ _ as w' hrun has a ha
  cases hrun with
  | nil _ => cases ha
  | cons hstep _ =>
    have hnone := hno _ (has _ List.mem_cons_self)
    rw [hstep.2] at hnone
    cases hnone

end Posix
end Lib
end RuShell
