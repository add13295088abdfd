import RuShell.Sessions

/-!
# The stopped flag

`has_stopped_jobs` reads a flag that is set when the shell sees a foreground job stop, and
cleared by `resume`.  Nobody else touches it: the handler of `SIGCHLD` is not told about
processes that stop or continue, and `ping` does not look at what the signal does.  So the
flag is right as long as jobs stop only in the foreground and continue only by `resume`.

## Main results

* `stopped_flag` — **in a steady session the flag is right at every prompt.**
* `pinged_job_stopped` — `ping` stops a job behind its back.
-/

namespace RuShell
namespace Control

open Lib (Run)
open RuShell.Segment
open RuShell.Redirect

/-- **The stopped flag tracks reality**: in every steady session, at every prompt,
`has_stopped_jobs` tells whether a process of a job that is tracked is stopped. -/
theorem stopped_flag {es : List Event} {s : State} (hrun : Run (ControlStep True) {} es s) :
    Jobs.hasStoppedJobs s.tables = true ↔
      ∃ g ∈ s.tables.groups, g.active = true ∧ HasStopped s g.pgid := by
  have h : Home True s := home_run hrun
  have hflag : ∀ g ∈ s.tables.groups, g.active = true →
      (g.stopped = true ↔ HasStopped s g.pgid) := by
    intro g hg hactive
    exact h.base.flags trivial g hg hactive (by simp)
  constructor
  · intro hany
    obtain ⟨g, hg, hentry⟩ := List.any_eq_true.mp hany
    obtain ⟨hactive, hstopped⟩ := Bool.and_eq_true_iff.mp hentry
    exact ⟨g, hg, hactive, (hflag g hg hactive).mp hstopped⟩
  · rintro ⟨g, hg, hactive, hstop⟩
    apply List.any_eq_true.mpr
    refine ⟨g, hg, Bool.and_eq_true_iff.mpr ⟨hactive, ?_⟩⟩
    exact (hflag g hg hactive).mpr hstop

/-- A foreground command that is stopped from the terminal right before the shell waits. -/
def stoppedCommand : List (Event × List (List Move)) :=
  [(.foreground plainEnv [plainStage 'a'], List.replicate 7 [] ++ [[.stops 100]])]

/-- After it the flag is set, and the command is indeed stopped. -/
theorem stopped_flag_set : ∃ s,
    Run (ControlStep True) {} (stoppedCommand.map Prod.fst) s ∧
    Jobs.hasStoppedJobs s.tables = true ∧
    ∃ g ∈ s.tables.groups, g.active = true ∧ HasStopped s g.pgid := by
  have hplay : (stoppedCommand.foldlM perform {}).any (fun s => Jobs.hasStoppedJobs s.tables) =
      true := by
    decide +kernel
  obtain ⟨s, hs, hflag⟩ := (Option.any_eq_true _ _).mp hplay
  have hrun : Run (ControlStep True) {} (stoppedCommand.map Prod.fst) s := run_of_perform hs
  exact ⟨s, hrun, hflag, (stopped_flag hrun).mp hflag⟩

/-- A signal for a job that is found and has a process left. -/
theorem ping_job {s : State} {args : List Str} {jobId : ℤ} {sig pgid : ℕ} {stopped : Bool}
    {cmdName : Str} (hrequest : pingRequest args = some (.job jobId, sig))
    (hlookup : Jobs.groupLookup s.tables jobId 64 = some (pgid, stopped, cmdName))
    (halive : Alive s pgid) :
    ControlStep False s (.ping args) ((s.killGroup pgid sig).print (sentMessage args)) := by
  apply ControlStep.ping
  have hfind : findTarget s (.job jobId) = some fun p => decide (s.pgrp p = some pgid) := by
    simp only [findTarget, hlookup, Option.map_some]
  have hreach : Reaches s fun p => decide (s.pgrp p = some pgid) := by
    obtain ⟨p, hp, hgroup, hlife⟩ := halive
    exact ⟨p, hp, decide_eq_true hgroup, hlife⟩
  simp only [Ping, hrequest, hfind]
  exact ⟨s, .refl s, False.elim, (if_pos hreach).symm⟩

/-- `ping %1 19` sends `SIGSTOP`. -/
def pingStop : List Str := ["ping".toList, "%1".toList, "19".toList]

/-- **`ping` stops a job behind the back of the flag.** -/
theorem pinged_job_stopped : ∃ s,
    Run (ControlStep False) {} [.background plainEnv [plainStage 'a'], .ping pingStop] s ∧
    Jobs.hasStoppedJobs s.tables = false ∧
    ∃ g ∈ s.tables.groups, g.active = true ∧ HasStopped s g.pgid := by
  have hplay : ([(Event.background plainEnv [plainStage 'a'], [])].foldlM perform {}).any
      (fun s => decide (Alive s 100 ∧
        Jobs.groupLookup s.tables 1 64 = some (100, false, ['a']) ∧
        Jobs.hasStoppedJobs s.tables = false ∧
        ∃ g ∈ s.tables.groups, g.active = true ∧ HasStopped (s.killGroup 100 19) g.pgid)) =
      true := by
    decide +kernel
  obtain ⟨s, hs, hcheck⟩ := (Option.any_eq_true _ _).mp hplay
  obtain ⟨halive, hlookup, hflag, hstopped⟩ := of_decide_eq_true hcheck
  have hrun : Run (ControlStep False) {} [.background plainEnv [plainStage 'a']] s :=
    run_of_perform hs
  have hping := ping_job (show pingRequest pingStop = some (.job 1, 19) by decide +kernel) hlookup
    halive
  exact ⟨_, hrun.append (.single hping), hflag, hstopped⟩

end Control
end RuShell
