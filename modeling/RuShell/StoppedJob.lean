import RuShell.Abort

/-!
# Stopping the foreground job

The terminal stops the commands of the job, not the helpers: these run the handlers of the
shell.  The shell goes on when a command is stopped, and then waits for the helpers of its
stage.  The reader of a stage ends only when the command has closed its output, which a
stopped command does not do, and the writer has to wait if the command does not read.

## Main results

* `stopped_job_returns` — without output redirections, and with inputs that fit into a pipe,
  the shell returns without a step of the commands.
* `stopped_job_hangs` — a stopped command with an output file.
-/

namespace RuShell
namespace Redirect

open Lib.Posix
open RuShell.Segment

variable {lim : Limits} {env : Env} {stages : List CommandStage} {w : World sh ℤ} {v : View sh}
  {Q : ℤ → View sh → Prop}

/-- `execute_pipeline` keeps the pact, for any number of stages. -/
theorem mwp_executePipeline {f : Fds sh} (hf : ShellTable f) :
    mwp lim True (helperPact env stages) (executePipeline env stages) (fun _ _ => True)
      ⟨f, [], false⟩ := by
  match stages with
  | [] => exact trivial
  | [st] => exact mwp_executeWithRedirection hf
  | st :: st' :: rest =>
    apply mwp_preparePipeline hf
    intro pipefds setups v hshelf hlate
    exact mwp_launchPipeline hshelf hlate

/-- The helpers of the stages in `roles` do not depend on the commands: there is no reader,
and what the writer writes fits into the pipe. -/
def Independent (lim : Limits) (env : Env) (stages : List CommandStage) (roles : List Role) :
    Prop :=
  ∀ i st, stages[i]? = some st → Role.stage i ∈ roles →
    st.outputFiles = [] ∧ inputSize env st.inputFiles ≤ lim.cap

/-- A helper that the shell waits for after a stage has been forked is a writer whose input
fits into the pipe. -/
theorem writer_of_waitsFor {pid : ℕ} (h : Kept lim True (helperPact env stages) Q w v)
    (hstage : ∃ i, Role.stage i ∈ v.kids)
    (hind : Independent lim env stages v.kids) (hwaits : WaitsFor pid v) :
    ∃ m i, pid = m + 1 ∧ v.kids[m]? = some (.writer i) ∧ stageInput env stages i ≤ lim.cap := by
  obtain ⟨m, i, rfl, hrole, hforked⟩ := hwaits
  have hmem : Role.stage i ∈ v.kids := by
    rcases hforked with hmem | ⟨hhelpers, -⟩
    · exact hmem
    -- nothing is being undone once a stage has been forked
    · obtain ⟨k, hk⟩ := hstage
      obtain ⟨l, hl | hl⟩ := hhelpers _ hk
      · cases hl
      · cases hl
  refine ⟨m, i, rfl, ?_, ?_⟩
  · refine hrole.resolve_right fun hreader => ?_
    obtain ⟨st, hst, hfiles⟩ := h.named _ (List.mem_of_getElem? hreader)
    exact hfiles (hind i st hst hmem).1
  · unfold stageInput
    split
    · exact Nat.zero_le _
    · rename_i st hst
      exact (hind i st hst hmem).2

theorem canDie_of_waitsFor {pid : ℕ} (h : Kept lim True (helperPact env stages) Q w v)
    (hstage : ∃ i, Role.stage i ∈ v.kids) (hind : Independent lim env stages v.kids)
    (hwaits : WaitsFor pid v) (halive : w.isDead pid = false) :
    CanDie lim False w pid := by
  obtain ⟨m, i, rfl, hwriter, hsize⟩ := writer_of_waitsFor h hstage hind hwaits
  have hm : m < v.kids.length := (List.getElem?_eq_some_iff.mp hwriter).1
  have hlen := h.length
  obtain ⟨p, hp⟩ : ∃ p, w.procs[m + 1]? = some p := ⟨_, List.getElem?_eq_getElem (by omega)⟩
  have hrole : p.role = .writer i := by
    have hrole := h.role hp
    rw [hwriter] at hrole
    exact (Option.some.inj hrole).symm
  apply canDie_small h hp hrole _ hsize
  intro hdead
  rw [isDead_iff.mpr ⟨p, hp, hdead⟩] at halive
  cases halive

/-- **A stopped foreground job returns the prompt**, if no stage that has been forked has
output redirections or an input that does not fit into a pipe.  Whenever the shell waits, it
can get to its return without a step of the stage processes, that is, with all of them
stopped; and a helper that it waits for can run to its end on its own. -/
theorem stopped_job_returns {f : Fds sh} {as : List (Act sh)} {p : Process sh ℤ} {pid : ℕ}
    {u : Bool} {k : Status → Prog sh ℤ} (hf : ShellTable f)
    (hrun : Reaches lim True True (executePipeline env stages) f as w)
    (hp : w.procs[0]? = some p) (hcode : p.code = .running (.call (.wait pid u) k))
    (hstage : ∃ i, Role.stage i ∈ w.procs.map (·.role))
    (hind : Independent lim env stages (w.procs.map (·.role))) :
    (u = false → w.isDead pid = false → CanDie (I := sh) lim False w pid) ∧
    Returns (I := sh) lim (fun a => (∀ s, a ≠ .call 0 (.interrupted s)) ∧
      ∀ q, w.procs[a.pid]? = some q → ∀ i, q.role ≠ .stage i) w := by
  have hsound := helperPact_sound env stages
  obtain ⟨v, hkept⟩ := kept_run hsound hrun ⟨_, Kept.start (mwp_executePipeline hf)⟩
  -- the first process is the shell
  have hshell : p.role = .shell := by
    obtain ⟨q, hq, hrole⟩ := run_role hrun (j := 0) rfl
    rw [hp] at hq
    cases hq
    exact hrole
  have hstage' : ∃ i, Role.stage i ∈ v.kids := by
    obtain ⟨i, hi⟩ := hstage
    rw [hkept.map_role hp, hshell] at hi
    rcases List.mem_cons.mp hi with hi | hi
    · cases hi
    · exact ⟨i, hi⟩
  have hind' : Independent lim env stages v.kids := by
    intro i st hst hmem
    exact hind i st hst (mem_roles_of_kid hkept hmem)
  constructor
  · intro hu halive
    subst hu
    apply canDie_of_waitsFor hkept hstage' hind' _ halive
    exact (hkept.main_running hp hcode).2.1
  · apply hkept.returns hsound _ _ (rfl : v.kids = v.kids) hp hcode (.inr ⟨pid, u, k, rfl⟩)
    · intro o ho
      constructor
      · intro s heq
        cases heq
        exact ho s rfl
      · intro q hq i hrole
        have hq : w.procs[0]? = some q := hq
        rw [hp] at hq
        cases hq
        rw [hshell] at hrole
        cases hrole
    · intro w' v' h hkept' hv' hwaits
      rw [← hv'] at hstage' hind'
      by_cases halive : w'.isDead h = true
      · exact ⟨[], w', .nil w', by simp, halive⟩
      rw [Bool.not_eq_true] at halive
      obtain ⟨as', w₂, q, hrun', has', -, hq, hdead⟩ :=
        canDie_of_waitsFor hkept' hstage' hind' hwaits halive
      refine ⟨as', w₂, hrun', ?_, isDead_iff.mpr ⟨q, hq, hdead⟩⟩
      intro a ha
      obtain ⟨m, i, rfl, hwriter, -⟩ := writer_of_waitsFor hkept' hstage' hind' hwaits
      have hpid := has' a ha
      refine ⟨by omega, ?_, ?_⟩
      · intro s heq
        rw [heq] at hpid
        cases hpid
      -- what the writer is for does not change
      · intro q hq k hrole
        rw [hpid] at hq
        have hkid := hkept.role hq
        rw [← hv', hwriter, hrole] at hkid
        cases hkid

/-! ### Stopped commands -/

/-- The shell launches a command with a helper, sees it stopped, and waits for the helper. -/
def stoppedRun : List (Act sh) :=
  let v := Outcome.value 0
  [.ok, .ok, .ok, .ok, .ok, v, .ok, v, v, v, v, v, v, .ok, v, .status .stopped, v].map (Act.call 0)

/-- `cat < f`, stopped: the writer ends on its own. -/
theorem stopped_job_returns_cat : ∃ w, Reaches usualLimits True True
    (executePipeline { plainEnv with size := fun _ => 100 } [catF]) terminal stoppedRun w ∧
    shellAwaits w 1 = true ∧ w.procs.map (·.role) = [.shell, .writer 0, .stage 0] ∧
    (w.isDead 1 = false → CanDie (I := sh) usualLimits False w 1) ∧
    Returns (I := sh) usualLimits (fun a => (∀ s, a ≠ .call 0 (.interrupted s)) ∧
      ∀ q, w.procs[a.pid]? = some q → ∀ i, q.role ≠ .stage i) w := by
  obtain ⟨w, hrun, hawaits, hroles⟩ : ∃ w, Reaches usualLimits True True
      (executePipeline { plainEnv with size := fun _ => 100 } [catF]) terminal stoppedRun w ∧
      shellAwaits w 1 = true ∧ w.procs.map (·.role) = [Role.shell, .writer 0, .stage 0] :=
    exists_reaches (fun a _ => allowed_true a) (by decide +kernel)
  obtain ⟨p, k, hp, hcode⟩ := exists_of_shellAwaits hawaits
  have hstage : ∃ i, Role.stage i ∈ w.procs.map (·.role) := by
    rw [hroles]
    exact ⟨0, by decide⟩
  have hind : Independent usualLimits { plainEnv with size := fun _ => 100 } [catF]
      (w.procs.map (·.role)) := by
    intro i st hst _
    match i, hst with
    | 0, hst =>
      cases hst
      exact ⟨rfl, by decide⟩
  obtain ⟨hdie, hreturns⟩ := stopped_job_returns shellTable_terminal hrun hp hcode hstage hind
  exact ⟨w, hrun, hawaits, hroles, hdie rfl, hreturns⟩

/-- `a > f` -/
def aOutF : List CommandStage := [⟨[['a']], [], [(['f'], false)]⟩]

/-- The reader gets to its first `read`, the command is executed. -/
def aOutFRun : List (Act sh) :=
  stoppedRun ++ [.call 1 .ok] ++
    ([.value 0, .value 0, .ok, .ok, .ok].map (Act.call 2))

/-- The shell waits for the reader, and the reader for the stopped command: nobody but the
command can move. -/
theorem stopped_job_hangs : ∃ w, Reaches usualLimits False False (executePipeline plainEnv aOutF)
    terminal aOutFRun w ∧ shellAwaits w 1 = true ∧
    w.procs.map (·.role) = [.shell, .reader 0, .stage 0] ∧ w.isDead 2 = false ∧
    ∀ pid ≠ 2, Waits (I := sh) usualLimits w pid := by
  obtain ⟨w, hrun, hawaits, hroles, halive, hstopped, hdrain, hempty, hheld⟩ : ∃ w,
      Reaches usualLimits False False (executePipeline plainEnv aOutF) terminal aOutFRun w ∧
      shellAwaits w 1 = true ∧ w.procs.map (·.role) = [Role.shell, .reader 0, .stage 0] ∧
      w.isDead 1 = false ∧ w.isDead 2 = false ∧ drains w 1 (.output 0) = true ∧
      w.fill (PipeTag.output 0) = 0 ∧ w.held usualLimits (.write (.output 0)) = true :=
    exists_reaches (by decide) (by decide +kernel)
  refine ⟨w, hrun, hawaits, hroles, hstopped, ?_⟩
  intro pid hpid
  match pid with
  | 0 =>
    obtain ⟨p, k, hp, hcode⟩ := exists_of_shellAwaits hawaits
    exact waits_wait hp hcode halive
  | 1 => exact waits_of_drains hdrain hempty hheld
  | 2 => exact absurd rfl hpid
  | pid + 3 => exact waits_absent hroles (by simp)

end Redirect
end RuShell
