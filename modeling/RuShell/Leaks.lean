import RuShell.LaunchRules
import RuShell.Lib.Descriptors

/-!
# Descriptors of the shell

The launching functions open up to two descriptors for every pipe and redirection
and have many ways out: a command that does not resolve, a pipe, file or process that
cannot be had, and the normal return.  Here the descriptors that are open are followed
along each of them.

## Main definitions

* `StageIo.fds` — the descriptors of a stage that the shell has open.
* `LeakFree p` — `p` returns, and whatever happens, it leaves the table as it was and
  closes what it opens exactly once.

## Main results

* `setupStages_holding`, `makePipes_holding` — what is open after the two loops of a
  pipeline, also if they are left early.
* `no_descriptor_leaks` — **the launching functions leak no descriptor**.
-/

namespace RuShell
namespace Redirect

open Lib.Posix
open RuShell.Segment

variable {lim : Limits} {f : Fds sh} {ds : List ℕ} {s : FdState sh} {pids : List (Option ℕ)} {i : ℕ}

/-- The descriptors of a stage that the shell has open. -/
def StageIo.fds (io : StageIo) : List ℕ := io.inFd.toList ++ io.outFd.toList

/-- Those of all stages. -/
def setupFds (setups : List Setup) : List ℕ := setups.flatMap fun s => s.io.fds

/-! ### Small pieces -/

variable {Q : Unit → FdState sh → Prop} {pipefds : List (ℕ × ℕ)} {env : Env} {st : CommandStage}
  {setups : List Setup} {stages : List CommandStage}

theorem closeOpt_holding {fd : Option ℕ} (h : Holding f (fd.toList ++ ds) s)
    (hQ : ∀ t, Holding f ds t → Q () t) :
    wlp (fdEffect lim) (closeOpt fd) Q s := by
  cases fd with
  | none => exact hQ s h
  | some fd => exact h.close hQ

theorem neutral_book : ∀ b : Book, Neutral (I := sh) (.book b) := fun _ => trivial

theorem neutral_wait : ∀ pid untraced, Neutral (I := sh) (.wait pid untraced) := fun _ _ => trivial

/-- Go past a bookkeeping call. -/
theorem note_holding {α : Type} {b : Book} {q : Unit → Prog sh α} {Q : α → FdState sh → Prop}
    (h : Holding f ds s) (hq : ∀ t, Holding f ds t → wlp (fdEffect lim) (q ()) Q t) :
    wlp (fdEffect lim) (note b >>= q) Q s :=
  wlp_seq (h.neutral (calls_note (neutral_book b))) fun _ t ht => hq t ht

theorem setpgid_holding {pid : ℕ} {pgid : Option ℕ} (h : Holding f ds s) :
    wlp (fdEffect lim) (setpgid pid pgid) (fun _ => Holding f ds) s :=
  h.neutral (calls_setpgid (neutral_book _) fun _ => neutral_book _)

theorem waitOpt_holding {pid : Option ℕ} (h : Holding f ds s) :
    wlp (fdEffect lim) (waitOpt pid) (fun _ => Holding f ds) s :=
  h.neutral (calls_waitOpt (neutral_wait · false) pid)

theorem closeAllPipes_holding (h : Holding f (pipeEnds pipefds ++ ds) s)
    (hQ : ∀ t, Holding f ds t → Q () t) :
    wlp (fdEffect lim) (closeAllPipes pipefds) Q s := h.closeFds hQ

/-! ### Redirections -/

theorem openEach_holding {files : List FileName} {fds : List ℕ} (h : Holding f (fds ++ ds) s)
    {Q : Except (List ℕ) (List ℕ) → FdState sh → Prop}
    (hok : ∀ fds t, Holding f (fds ++ ds) t → Q (.ok fds) t)
    (hfail : ∀ fds t, Holding f (fds ++ ds) t → Q (.error fds) t) :
    wlp (fdEffect lim) (openEach files fds) Q s := by
  induction files generalizing fds s with
  | nil => exact hok fds s h
  | cons file files ih =>
    refine wlp_bind.mpr (h.openFile (fun a t ht => ?_) fun t ht => hfail fds t ht)
    refine ih (ht.perm ?_)
    rw [List.append_assoc]
    exact List.perm_middle.symm

theorem forkHelper_holding {r : Role} {child : Prog sh (Option (ℕ × Option ℕ))} {fds : List ℕ}
    {keep drop : ℕ} (h : Holding f (fds ++ drop :: keep :: ds) s)
    {Q : Option (ℕ × Option ℕ) → FdState sh → Prop}
    (hok : ∀ pid t, Holding f (keep :: ds) t → Q (some (keep, pid)) t) :
    wlp (fdEffect lim) (forkHelper r child fds keep drop) Q s := by
  have hparent : ∀ (pid : Option ℕ) t, Holding f (fds ++ drop :: keep :: ds) t →
      wlp (fdEffect lim) (do
        closeFds fds
        close drop
        pure (some (keep, pid))) Q t := by
    intro pid t ht
    refine wlp_bind.mpr (ht.closeFds fun t ht => ?_)
    exact wlp_bind.mpr (ht.close fun t ht => hok pid t ht)
  refine wlp_bind.mpr (h.fork (fun pid t ht => ?_) fun t ht => ?_)
  · exact hparent (some pid) t ht
  · exact hparent none t ht

theorem setupInputRedirection_holding {files : List Str} (h : Holding f ds s)
    {Q : Option (ℕ × Option ℕ) → FdState sh → Prop}
    (hok : ∀ fd pid t, Holding f (fd :: ds) t → Q (some (fd, pid)) t)
    (hfail : ∀ t, Holding f ds t → Q none t) :
    wlp (fdEffect lim) (setupInputRedirection env i files pipefds) Q s := by
  refine wlp_bind.mpr (h.pipe (fun a b t ht => ?_) fun t ht => ?_)
  · have ht : Holding f ([] ++ a :: b :: ds) t := ht
    refine wlp_bind.mpr (openEach_holding ht (fun fds u hu => ?_) fun fds u hu => ?_)
    · exact forkHelper_holding (hu.perm ((List.Perm.swap _ _ _).append_left fds)) (hok a)
    · refine note_holding hu fun v hv => ?_
      refine wlp_bind.mpr (hv.closeFds fun w hw => ?_)
      refine wlp_bind.mpr (hw.close fun x hx => ?_)
      exact wlp_bind.mpr (hx.close fun y hy => hfail y hy)
  · exact note_holding ht fun u hu => hfail u hu

theorem setupOutputRedirection_holding {files : List (Str × Bool)} (h : Holding f ds s)
    {Q : Option (ℕ × Option ℕ) → FdState sh → Prop}
    (hok : ∀ fd pid t, Holding f (fd :: ds) t → Q (some (fd, pid)) t)
    (hfail : ∀ t, Holding f ds t → Q none t) :
    wlp (fdEffect lim) (setupOutputRedirection i files pipefds) Q s := by
  have h : Holding f ([] ++ ds) s := h
  refine wlp_bind.mpr (wlp_bind.mpr (openEach_holding h (fun fds t ht => ?_) fun fds t ht => ?_))
  · refine wlp_bind.mpr (ht.pipe (fun a b u hu => ?_) fun u hu => ?_)
    · have hperm : (a :: b :: (fds ++ ds)).Perm (fds ++ a :: b :: ds) :=
        (List.perm_middle.symm.cons a).trans List.perm_middle.symm
      exact forkHelper_holding (hu.perm hperm) (hok b)
    · refine note_holding hu fun v hv => ?_
      exact wlp_bind.mpr (hv.closeFds fun w hw => hfail w hw)
  · refine note_holding ht fun u hu => ?_
    exact wlp_bind.mpr (hu.closeFds fun v hv => hfail v hv)

/-- A stage holds what its redirections have opened, also if the second one fails. -/
theorem setupStage_holding (h : Holding f ds s) {Q : StageIo × Bool → FdState sh → Prop}
    (hQ : ∀ io ok t, Holding f (io.fds ++ ds) t → (ok = false → io.outFd = none) → Q (io, ok) t) :
    wlp (fdEffect lim) (setupStage env i st pipefds) Q s := by
  have hout : ∀ (inFd writer : Option ℕ) t, Holding f (inFd.toList ++ ds) t →
      wlp (fdEffect lim) (setupStageOut i st pipefds inFd writer) Q t := by
    intro inFd writer t ht
    have hnone : ∀ reader ok u, Holding f (inFd.toList ++ ds) u →
        Q (⟨inFd, none, writer, reader⟩, ok) u := by
      intro reader ok u hu
      refine hQ _ ok u ?_ fun _ => rfl
      simpa [StageIo.fds] using hu
    unfold setupStageOut setupOut
    split
    · exact hnone none true t ht
    · refine wlp_bind.mpr (wlp_bind.mpr (setupOutputRedirection_holding ht
        (fun fd pid u hu => ?_) fun u hu => hnone none false u hu))
      refine hQ _ true u (hu.perm ?_) fun hok => (by cases hok)
      simpa [StageIo.fds] using List.perm_middle.symm
  unfold setupStage setupIn
  split
  · exact hout none none s h
  · refine wlp_bind.mpr (wlp_bind.mpr (setupInputRedirection_holding h (fun fd pid t ht => ?_)
      fun t ht => hQ _ false t ht fun _ => rfl))
    exact hout (some fd) pid t ht

theorem undoStage_holding {io : StageIo} (h : Holding f (io.fds ++ ds) s) :
    wlp (fdEffect lim) (undoStage io) (fun _ => Holding f ds) s := by
  rw [StageIo.fds, List.append_assoc] at h
  refine wlp_bind.mpr (closeOpt_holding h fun s h => ?_)
  refine wlp_bind.mpr (closeOpt_holding h fun s h => ?_)
  exact wlp_seq (waitOpt_holding h) fun _ s h => waitOpt_holding h

/-! ### One command -/

theorem finishJob_holding {pgid : ℕ} {status : Status} {cmdline : Str} (h : Holding f ds s) :
    wlp (fdEffect lim) (finishJob pgid status cmdline) (fun _ => Holding f ds) s :=
  h.neutral (calls_finishJob (neutral_book _) (fun _ => neutral_book _) (neutral_book _))

theorem commandParent_holding {pid : ℕ} {io : StageIo} (h : Holding f (io.fds ++ ds) s) :
    wlp (fdEffect lim) (commandParent pid st io) (fun _ => Holding f ds) s := by
  rw [StageIo.fds, List.append_assoc] at h
  refine wlp_seq (setpgid_holding h) fun _ s h => ?_
  refine wlp_seq (h.neutral (calls_addHelpers neutral_book io)) fun _ s h => ?_
  refine note_holding h fun s h => note_holding h fun s h => note_holding h fun s h => ?_
  refine wlp_bind.mpr (closeOpt_holding h fun s h => ?_)
  refine wlp_bind.mpr (closeOpt_holding h fun s h => ?_)
  refine note_holding h fun s h => ?_
  refine wlp_seq (h.neutral ⟨trivial, fun _ => trivial⟩) fun status s h => ?_
  refine note_holding h fun s h => ?_
  refine wlp_seq (waitOpt_holding h) fun _ s h => ?_
  exact wlp_seq (waitOpt_holding h) fun _ s h => finishJob_holding h

/-- The first half of a single command, given what the second half does. -/
theorem prepareCommand_holding {α : Type} {failed : α} {launch : Str → StageIo → Prog sh α}
    (h : Holding f ds s)
    (hlaunch : ∀ path (io : StageIo) t, Holding f (io.fds ++ ds) t →
      wlp (fdEffect lim) (launch path io) (fun _ => Holding f ds) t) :
    wlp (fdEffect lim) (prepareCommand env st failed launch) (fun _ => Holding f ds) s := by
  unfold prepareCommand
  split
  · exact note_holding h fun s h => h
  · refine wlp_bind.mpr (setupStage_holding h fun io ok s h hout => ?_)
    cases ok with
    | false =>
      rw [StageIo.fds, hout rfl, Option.toList_none, List.append_nil] at h
      refine wlp_bind.mpr (closeOpt_holding h fun s h => ?_)
      exact wlp_seq (waitOpt_holding h) fun _ s h => h
    | true => exact note_holding h fun s h => hlaunch _ io s h

theorem executeWithRedirection_holding (h : Holding f ds s) :
    wlp (fdEffect lim) (executeWithRedirection env st) (fun _ => Holding f ds) s := by
  refine prepareCommand_holding h fun path io s h => ?_
  refine wlp_bind.mpr (h.fork (fun pid s h => commandParent_holding h) fun s h => ?_)
  refine note_holding h fun s h => note_holding h fun s h => ?_
  exact wlp_seq (undoStage_holding h) fun _ s h => h

/-! ### Pipelines -/

/-- The pipes created so far are open. -/
theorem makePipes_holding {n k : ℕ} (h : Holding f (pipeEnds pipefds ++ ds) s)
    {Q : List (ℕ × ℕ) × Bool → FdState sh → Prop}
    (hQ : ∀ pipefds ok t, Holding f (pipeEnds pipefds ++ ds) t → Q (pipefds, ok) t) :
    wlp (fdEffect lim) (makePipes n k pipefds) Q s := by
  induction n generalizing k pipefds s with
  | zero => exact hQ pipefds true s h
  | succ n ih =>
    refine wlp_bind.mpr (h.pipe (fun a b t ht => ?_) fun t ht => ?_)
    · refine ih (ht.perm ?_)
      unfold pipeEnds
      rw [List.flatMap_append, List.append_assoc]
      exact (List.perm_middle.symm.cons a).trans List.perm_middle.symm
    · exact note_holding ht fun u hu => hQ pipefds false u hu

/-- The redirections set up so far are open. -/
theorem setupStages_holding (h : Holding f (setupFds setups ++ ds) s)
    {Q : List Setup × Bool → FdState sh → Prop}
    (hQ : ∀ setups ok t, Holding f (setupFds setups ++ ds) t → Q (setups, ok) t) :
    wlp (fdEffect lim) (setupStages env pipefds stages i setups) Q s := by
  induction stages generalizing i setups s with
  | nil => exact hQ setups true s h
  | cons st stages ih =>
    refine wlp_bind.mpr (setupStage_holding h fun io ok t ht _ => ?_)
    have hnext : ∀ resolved, Holding f (setupFds (setups ++ [⟨io, resolved⟩]) ++ ds) t := by
      intro resolved
      refine ht.perm ?_
      unfold setupFds
      rw [List.flatMap_append, List.flatMap_singleton, ← List.append_assoc]
      exact List.perm_append_comm.append_right ds
    cases ok with
    | false => exact hQ _ false t (hnext none)
    | true =>
      dsimp only
      split
      · exact note_holding (hnext _) fun u hu => ih hu
      · exact ih (hnext _)

theorem undoStages_holding (h : Holding f (setupFds setups ++ ds) s) :
    wlp (fdEffect lim) (undoStages setups) (fun _ => Holding f ds) s := by
  induction setups generalizing s with
  | nil => exact h
  | cons x setups ih =>
    rw [setupFds, List.flatMap_cons, List.append_assoc] at h
    exact wlp_seq (undoStage_holding h) fun _ t ht => ih ht

theorem closeStages_holding (h : Holding f (setupFds setups ++ ds) s)
    (hQ : ∀ t, Holding f ds t → Q () t) :
    wlp (fdEffect lim) (closeStages setups) Q s := by
  induction setups generalizing s with
  | nil => exact hQ s h
  | cons x setups ih =>
    rw [setupFds, List.flatMap_cons, List.append_assoc, StageIo.fds, List.append_assoc] at h
    refine wlp_bind.mpr (closeOpt_holding h fun t ht => ?_)
    exact wlp_bind.mpr (closeOpt_holding ht fun u hu => ih hu)

theorem forkStages_holding {child : StageProg} {zs : List (CommandStage × Setup)}
    (h : Holding f ds s) {Q : List (Option ℕ) → FdState sh → Prop}
    (hQ : ∀ pids t, Holding f ds t → Q pids t) :
    wlp (fdEffect lim) (forkStages child zs i pids) Q s := by
  induction zs generalizing i pids s with
  | nil => exact hQ pids s h
  | cons z zs ih =>
    obtain ⟨st, x⟩ := z
    unfold forkStages
    split
    · exact ih h
    · refine wlp_bind.mpr (h.fork (fun pid t ht => ?_) fun t ht => ?_)
      · exact wlp_seq (setpgid_holding ht) fun _ u hu => ih hu
      · exact note_holding ht fun u hu => ih hu

theorem pipelineParent_holding
    (h : Holding f (pipeEnds pipefds ++ (setupFds setups ++ ds)) s) :
    wlp (fdEffect lim) (pipelineParent stages pipefds setups pids) (fun _ => Holding f ds) s := by
  have hwait := calls_waitStages neutral_wait (setups.zip pids) 0 .exited
  unfold pipelineParent
  cases leaderOf pids with
  | none =>
    refine note_holding h fun s h => ?_
    refine wlp_bind.mpr (closeAllPipes_holding h fun s h => ?_)
    refine wlp_bind.mpr (closeStages_holding h fun s h => ?_)
    exact wlp_seq (h.neutral hwait) fun _ s h => h
  | some leader =>
    refine note_holding h fun s h => ?_
    refine wlp_seq (h.neutral (calls_registerStages neutral_book _)) fun _ s h => ?_
    refine note_holding h fun s h => note_holding h fun s h => ?_
    refine wlp_bind.mpr (closeAllPipes_holding h fun s h => ?_)
    refine wlp_bind.mpr (closeStages_holding h fun s h => ?_)
    refine wlp_seq (h.neutral hwait) fun status s h => ?_
    exact note_holding h fun s h => finishJob_holding h

/-- The first half of a pipeline, given what the second half does. -/
theorem preparePipeline_holding {launch : List (ℕ × ℕ) → List Setup → Prog sh ℤ}
    (h : Holding f ds s)
    (hlaunch : ∀ pipefds setups t, Holding f (pipeEnds pipefds ++ (setupFds setups ++ ds)) t →
      wlp (fdEffect lim) (launch pipefds setups) (fun _ => Holding f ds) t) :
    wlp (fdEffect lim) (preparePipeline env stages launch) (fun _ => Holding f ds) s := by
  have h : Holding f (pipeEnds [] ++ ds) s := h
  refine wlp_bind.mpr (makePipes_holding h fun pipefds ok s h => ?_)
  cases ok with
  | false => exact wlp_bind.mpr (closeAllPipes_holding h fun s h => h)
  | true =>
    have h : Holding f (setupFds [] ++ (pipeEnds pipefds ++ ds)) s := h
    refine wlp_bind.mpr (setupStages_holding h fun setups ok s h => ?_)
    cases ok with
    | false =>
      refine wlp_seq (undoStages_holding h) fun _ s h => ?_
      exact wlp_bind.mpr (closeAllPipes_holding h fun s h => h)
    | true =>
      refine hlaunch pipefds setups s (h.perm ?_)
      rw [← List.append_assoc, ← List.append_assoc]
      exact List.perm_append_comm.append_right ds

theorem executePipeline_holding (h : Holding f ds s) :
    wlp (fdEffect lim) (executePipeline env stages) (fun _ => Holding f ds) s := by
  unfold executePipeline
  split
  · exact h
  · exact executeWithRedirection_holding h
  · refine preparePipeline_holding h fun pipefds setups s h => ?_
    refine note_holding h fun s h => ?_
    exact wlp_bind.mpr (forkStages_holding h fun pids s h => pipelineParent_holding h)

/-! ### Background -/

theorem executeWithRedirectionBg_holding {sync : Option (ℕ × ℕ)} (h : Holding f ds s) :
    wlp (fdEffect lim) (executeWithRedirectionBg env st sync) (fun _ => Holding f ds) s := by
  refine prepareCommand_holding h fun path io s h => ?_
  refine wlp_bind.mpr (h.fork (fun pid s h => ?_) fun s h => ?_)
  · rw [StageIo.fds, List.append_assoc] at h
    refine wlp_seq (setpgid_holding h) fun _ s h => ?_
    refine wlp_seq (h.neutral (calls_addHelpers neutral_book io)) fun _ s h => ?_
    refine wlp_bind.mpr (closeOpt_holding h fun s h => ?_)
    refine wlp_bind.mpr (closeOpt_holding h fun s h => ?_)
    exact note_holding h fun s h => h
  · refine note_holding h fun s h => ?_
    refine wlp_seq (undoStage_holding h) fun _ s h => ?_
    exact note_holding h fun s h => h

/-- The two ends of the gate, if it could be created. -/
def gateFds (sync : Option (ℕ × ℕ)) : List ℕ :=
  (sync.map Prod.fst).toList ++ (sync.map Prod.snd).toList

theorem gate_holding {Q : Option (ℕ × ℕ) → FdState sh → Prop} (h : Holding f ds s)
    (hQ : ∀ sync t, Holding f (gateFds sync ++ ds) t → Q sync t) :
    wlp (fdEffect lim) (pipe (I := sh) PipeTag.gate) Q s :=
  h.pipe (fun a b t ht => hQ (some (a, b)) t ht) fun t ht => hQ none t ht

theorem backgroundCommand_holding (h : Holding f ds s) :
    wlp (fdEffect lim) (backgroundCommand env st) (fun _ => Holding f ds) s := by
  refine wlp_bind.mpr (gate_holding h fun sync s h => ?_)
  refine wlp_seq (executeWithRedirectionBg_holding h) fun child s h => ?_
  rw [gateFds, List.append_assoc] at h
  refine wlp_bind.mpr (closeOpt_holding h fun s h => ?_)
  cases child with
  | none => exact wlp_bind.mpr (closeOpt_holding h fun s h => h)
  | some pid =>
    refine wlp_seq (h.neutral ⟨trivial, fun _ => trivial⟩) fun jobId s h => ?_
    refine note_holding h fun s h => note_holding h fun s h => note_holding h fun s h => ?_
    exact wlp_bind.mpr (closeOpt_holding h fun s h => h)

theorem backgroundParent_holding {sync : Option (ℕ × ℕ)}
    (h : Holding f (pipeEnds pipefds ++ (setupFds setups ++ (gateFds sync ++ ds))) s) :
    wlp (fdEffect lim) (backgroundParent stages pipefds setups sync pids)
      (fun _ => Holding f ds) s := by
  unfold backgroundParent
  rw [gateFds, List.append_assoc (sync.map Prod.fst).toList] at h
  refine wlp_bind.mpr (closeAllPipes_holding h fun s h => ?_)
  refine wlp_bind.mpr (closeStages_holding h fun s h => ?_)
  refine wlp_bind.mpr (closeOpt_holding h fun s h => ?_)
  cases leaderOf pids with
  | none =>
    refine wlp_bind.mpr (closeOpt_holding h fun s h => ?_)
    exact note_holding h fun s h => h
  | some leader =>
    refine wlp_seq (h.neutral ⟨trivial, fun _ => trivial⟩) fun jobId s h => ?_
    refine note_holding h fun s h => ?_
    refine wlp_seq (h.neutral (calls_registerStagesBg neutral_book jobId _)) fun _ s h => ?_
    refine note_holding h fun s h => ?_
    refine wlp_bind.mpr (closeOpt_holding h fun s h => ?_)
    exact note_holding h fun s h => h

theorem executeBackground_holding (h : Holding f ds s) :
    wlp (fdEffect lim) (executeBackground env stages) (fun _ => Holding f ds) s := by
  unfold executeBackground
  split
  · exact h
  · exact backgroundCommand_holding h
  · refine preparePipeline_holding h fun pipefds setups s h => ?_
    refine note_holding h fun s h => ?_
    refine wlp_bind.mpr (gate_holding h fun sync s h => ?_)
    refine wlp_bind.mpr (forkStages_holding h fun pids s h => backgroundParent_holding (h.perm ?_))
    -- The gate was opened last.
    rw [← List.append_assoc, ← List.append_assoc, ← List.append_assoc, ← List.append_assoc]
    refine List.Perm.append_right ds ?_
    rw [List.append_assoc]
    exact List.perm_append_comm

/-! ### The launching functions return -/

section Returns

/-- The calls that have a result. -/
def Answered : Call sh → Prop
  | .exit _ => False
  | _ => True

theorem exists_answer (lim : Limits) (c : Call sh) (s : FdState sh) (hc : Answered c) :
    ∃ x t, (fdEffect lim).call c s x t := by
  have hnext : ∃ x g, (fdLocal lim True).next c s.fds x g := by
    cases c with
    | exit n => exact hc.elim
    | pipe t => exact ⟨none, s.fds, trivial, rfl⟩
    | openFile n => exact ⟨none, s.fds, rfl⟩
    | wait pid untraced => exact ⟨.exited, s.fds, rfl⟩
    | book b => exact ⟨(0 : ℤ), s.fds, rfl⟩
    | _ => exact ⟨(), _, rfl⟩
  obtain ⟨x, g, hg⟩ := hnext
  exact ⟨x, ⟨g, s.log ++ fdEvents c x⟩, hg, rfl⟩

theorem answers {α : Type} {p : Prog sh α} (hp : p.Calls Answered) :
    (fdEffect lim).canReturn.holds p (fun _ _ => True) s :=
  canReturn_of_calls (exists_answer lim) hp s

/-- Go past a program that can return. -/
theorem canReturn_seq {α β : Type} {p : Prog sh α} {q : α → Prog sh β} {Q : β → FdState sh → Prop}
    (hp : (fdEffect lim).canReturn.holds p (fun _ _ => True) s)
    (hq : ∀ a t, (fdEffect lim).canReturn.holds (q a) Q t) :
    (fdEffect lim).canReturn.holds (p >>= q) Q s :=
  Logic.bind _ (Logic.mono _ (fun a t _ => hq a t) hp)

/-- The fork succeeds. -/
theorem canReturn_fork {α : Type} {r : Role} {k : Forked → Prog sh α} {Q : α → FdState sh → Prop}
    (h : ∀ pid t, (fdEffect lim).canReturn.holds (k (.parent pid)) Q t) :
    (fdEffect lim).canReturn.holds (fork r >>= k) Q s := by
  obtain ⟨a, t, hexec, hQ⟩ := h 0 s
  exact ⟨a, t, .parent rfl hexec, hQ⟩

theorem crew_canReturn (lim : Limits) : Crew (fdEffect lim).canReturn fun _ _ => True where
  minor hp _ := by
    refine answers (hp.mono fun c hc => ?_)
    cases c with
    | exit n => exact hc
    | _ => trivial
  fork _ _ hparent _ := canReturn_fork fun pid t => hparent pid t trivial

theorem answered_close : ∀ fd, Answered (.close fd) := fun _ => trivial

theorem answered_book : ∀ b : Book, Answered (.book b) := fun _ => trivial

theorem answered_wait : ∀ pid untraced, Answered (.wait pid untraced) := fun _ _ => trivial

theorem answered_note (b : Book) : (note b).Calls Answered := calls_note trivial

theorem answered_gate : (pipe (I := sh) .gate).Calls Answered := ⟨trivial, fun _ => trivial⟩

theorem canReturn_prepareCommand {α : Type} {failed : α} {launch : Str → StageIo → Prog sh α}
    (hlaunch : ∀ path io t, (fdEffect lim).canReturn.holds (launch path io) (fun _ _ => True) t) :
    (fdEffect lim).canReturn.holds (prepareCommand env st failed launch) (fun _ _ => True) s :=
  (crew_canReturn lim).prepareCommand trivial
    (fun path io _ _ => canReturn_seq (answers (calls_note trivial)) fun _ => hlaunch path io)
    (fun _ _ _ => answers (calls_waitOpt (answered_wait · false) _)) fun _ _ _ => trivial

theorem executeWithRedirection_returns :
    (fdEffect lim).canReturn.holds (executeWithRedirection env st) (fun _ _ => True) s := by
  refine canReturn_prepareCommand fun path io t => canReturn_fork fun pid t => answers ?_
  have hnote := answered_note
  have hclose := calls_closeOpt answered_close
  have hwait := calls_waitOpt (answered_wait · false)
  refine (calls_setpgid trivial fun _ => trivial).bind fun _ => ?_
  refine (calls_addHelpers answered_book io).bind fun _ => (hnote _).bind fun _ => ?_
  refine (hnote _).bind fun _ => (hnote _).bind fun _ => (hclose _).bind fun _ => ?_
  refine (hclose _).bind fun _ => (hnote _).bind fun _ => ⟨trivial, fun status => ?_⟩
  refine (hnote _).bind fun _ => (hwait _).bind fun _ => (hwait _).bind fun _ => ?_
  exact calls_finishJob trivial (fun _ => trivial) trivial

theorem canReturn_forkStages {child : StageProg} {zs : List (CommandStage × Setup)} :
    (fdEffect lim).canReturn.holds (forkStages child zs i pids) (fun _ _ => True) s := by
  induction zs generalizing i pids s with
  | nil => exact answers trivial
  | cons z zs ih =>
    unfold forkStages
    split
    · exact ih
    · refine canReturn_fork fun pid t => ?_
      exact canReturn_seq (answers (calls_setpgid trivial fun _ => trivial)) fun _ t => ih

theorem canReturn_preparePipeline {launch : List (ℕ × ℕ) → List Setup → Prog sh ℤ}
    (hlaunch : ∀ pipefds setups t,
      (fdEffect lim).canReturn.holds (launch pipefds setups) (fun _ _ => True) t) :
    (fdEffect lim).canReturn.holds (preparePipeline env stages launch) (fun _ _ => True) s :=
  (crew_canReturn lim).preparePipeline trivial
    (fun pipefds setups t _ _ => hlaunch pipefds setups t)
    (fun _ _ _ => answers (calls_undoStages answered_close (answered_wait · false) _))
    fun _ _ _ _ => trivial

theorem pipelineParent_returns :
    (pipelineParent stages pipefds setups pids).Calls Answered := by
  have hnote := answered_note
  have hpipes := calls_closeFds answered_close (pipeEnds pipefds)
  have hstages := calls_closeStages answered_close setups
  have hwait := calls_waitStages answered_wait (setups.zip pids) 0 .exited
  unfold pipelineParent
  cases leaderOf pids with
  | none =>
    refine (hnote _).bind fun _ => hpipes.bind fun _ => hstages.bind fun _ => ?_
    exact hwait.bind fun _ => trivial
  | some leader =>
    refine (hnote _).bind fun _ => (calls_registerStages answered_book _).bind fun _ => ?_
    refine (hnote _).bind fun _ => (hnote _).bind fun _ => hpipes.bind fun _ => ?_
    refine hstages.bind fun _ => hwait.bind fun status => (hnote _).bind fun _ => ?_
    exact calls_finishJob trivial (fun _ => trivial) trivial

theorem executePipeline_returns :
    (fdEffect lim).canReturn.holds (executePipeline env stages) (fun _ _ => True) s := by
  unfold executePipeline
  split
  · exact answers trivial
  · exact executeWithRedirection_returns
  · refine canReturn_preparePipeline fun pipefds setups t => ?_
    refine canReturn_seq (answers (calls_note trivial)) fun _ t => ?_
    exact canReturn_seq canReturn_forkStages fun _ _ => answers pipelineParent_returns

theorem executeWithRedirectionBg_returns {sync : Option (ℕ × ℕ)} :
    (fdEffect lim).canReturn.holds (executeWithRedirectionBg env st sync) (fun _ _ => True) s := by
  refine canReturn_prepareCommand fun path io t => canReturn_fork fun pid t => answers ?_
  have hclose := calls_closeOpt answered_close
  refine (calls_setpgid trivial fun _ => trivial).bind fun _ => ?_
  refine (calls_addHelpers answered_book io).bind fun _ => (hclose _).bind fun _ => ?_
  exact (hclose _).bind fun _ => (answered_note _).bind fun _ => trivial

theorem backgroundCommand_returns :
    (fdEffect lim).canReturn.holds (backgroundCommand env st) (fun _ _ => True) s := by
  have hclose := calls_closeOpt answered_close
  refine canReturn_seq (answers answered_gate) fun sync t => ?_
  refine canReturn_seq executeWithRedirectionBg_returns fun child t => answers ?_
  refine (hclose _).bind fun _ => ?_
  cases child with
  | none => exact (hclose _).bind fun _ => trivial
  | some pid =>
    have hnote := answered_note
    refine ⟨trivial, fun jobId => (hnote _).bind fun _ => (hnote _).bind fun _ => ?_⟩
    exact (hnote _).bind fun _ => (hclose _).bind fun _ => trivial

theorem executeBackground_returns :
    (fdEffect lim).canReturn.holds (executeBackground env stages) (fun _ _ => True) s := by
  unfold executeBackground
  split
  · exact answers trivial
  · exact backgroundCommand_returns
  · refine canReturn_preparePipeline fun pipefds setups t => ?_
    refine canReturn_seq (answers (answered_note _)) fun _ t => ?_
    refine canReturn_seq (answers answered_gate) fun _ t => ?_
    refine canReturn_seq canReturn_forkStages fun _ _ => answers ?_
    exact calls_backgroundParent answered_close answered_book

end Returns

/-- The program returns, and however it does, the descriptor table is as it was when it
started, and the descriptors it has opened, and no others, have been closed, each exactly
once. -/
def LeakFree (p : Prog sh ℤ) : Prop :=
  ∀ (lim : Limits) (f : Fds sh), (∃ z s, Exec (fdEffect lim) p ⟨f, []⟩ z s) ∧
    ∀ (z : ℤ) (s : FdState sh), Exec (fdEffect lim) p ⟨f, []⟩ z s →
      s.fds = f ∧ s.log.foldlM balance [] = some []

theorem leakFree_of_holding {p : Prog sh ℤ}
    (hreturns : ∀ (lim : Limits) (s : FdState sh),
      (fdEffect lim).canReturn.holds p (fun _ _ => True) s)
    (h : ∀ (lim : Limits) (f : Fds sh) (s : FdState sh), Holding f [] s →
      wlp (fdEffect lim) p (fun _ t => Holding f [] t) s) : LeakFree p := by
  intro lim f
  refine ⟨?_, fun z s hexec => ?_⟩
  · obtain ⟨z, s, hexec, -⟩ := hreturns lim ⟨f, []⟩
    exact ⟨z, s, hexec⟩
  · exact (wlp_iff.mp (h lim f _ (Holding.start f)) z s hexec).nil

/-- **No descriptor leaks in the shell**, whichever pipes, files, processes and
commands can be had. -/
theorem no_descriptor_leaks (env : Env) :
    (∀ st, LeakFree (executeWithRedirection env st)) ∧
      (∀ stages, LeakFree (executePipeline env stages)) ∧
      ∀ stages, LeakFree (executeBackground env stages) := by
  refine ⟨fun st => ?_, fun stages => ?_, fun stages => ?_⟩
  · exact leakFree_of_holding (fun _ _ => executeWithRedirection_returns)
      fun _ _ _ h => executeWithRedirection_holding h
  · exact leakFree_of_holding (fun _ _ => executePipeline_returns)
      fun _ _ _ h => executePipeline_holding h
  · exact leakFree_of_holding (fun _ _ => executeBackground_returns)
      fun _ _ _ h => executeBackground_holding h

end Redirect
end RuShell
