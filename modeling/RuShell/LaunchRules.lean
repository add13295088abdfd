import RuShell.Redirect
import RuShell.Lib.Exec

/-!
# Rules for launches

What the programs of `redirect.c` do before they enter anything into the job tables,
whatever the calls mean: they set up the redirections, for which they fork helpers, and
then they fork the stages one after the other.  The rules are about any effect of the
calls and any invariant that speaks about the helpers that were forked so far.

## Main definitions

* `Minor` — calls that create and close descriptors, and messages.
* `Crew` — an invariant that minor calls and the forks of helpers keep.

## Main results

* `Crew.setupStages` — every helper that is forked belongs to a stage.
* `Crew.preparePipeline` — the first half of a pipeline.
* `wlp_forkStages` — the loop that forks the stages.
-/

namespace RuShell
namespace Redirect

open Lib.Posix
open RuShell.Segment

variable {α β σ : Type}

/-! ### The calls of a program -/

section Calls

variable {A : Call sh → Prop} {pgid : ℕ}

theorem calls_note {b : Book} (hb : A (.book b)) : (note b).Calls A := ⟨hb, fun _ => trivial⟩

theorem calls_setpgid {pid : ℕ} {pgid : Option ℕ} (hpgid : A (.book (.setpgid pid pgid)))
    (herror : ∀ text, A (.book (.perror text))) : (setpgid pid pgid).Calls A := by
  refine ⟨hpgid, fun (rc : ℤ) => ?_⟩
  change Prog.Calls A (if rc < 0 then perror "setpgid" else pure ())
  split
  · exact calls_note (herror _)
  · trivial

theorem calls_finishJob {status : Status} {cmdline : Str}
    (hmark : A (.book (.markGroupStopped pgid))) (hprint : ∀ text, A (.book (.printf text)))
    (hremove : A (.book (.groupRemove pgid))) : (finishJob pgid status cmdline).Calls A := by
  unfold finishJob
  split
  · exact ⟨hmark, fun _ => (calls_note (hprint _)).bind fun _ => trivial⟩
  · exact (calls_note hremove).bind fun _ => trivial

section Booking

variable (hbook : ∀ b, A (.book b))
include hbook

theorem calls_addHelper (pid : Option ℕ) (name : Str) : (addHelper pgid pid name).Calls A := by
  cases pid with
  | none => trivial
  | some pid =>
    exact (calls_setpgid (hbook _) fun _ => hbook _).bind fun _ => calls_note (hbook _)

theorem calls_addHelpers (io : StageIo) : (addHelpers pgid io).Calls A :=
  (calls_addHelper hbook _ _).bind fun _ => calls_addHelper hbook _ _

theorem calls_registerEach {first : ℕ → ℕ → Prog sh Unit}
    (hfirst : ∀ i pid, (first i pid).Calls A) (rows : List Row) (i : ℕ) :
    (registerEach pgid first rows i).Calls A := by
  induction rows generalizing i with
  | nil => trivial
  | cons row rows ih =>
    obtain ⟨st, s, child⟩ := row
    have hrest : Prog.Calls A (do
        addHelpers pgid s.io
        registerEach pgid first rows (i + 1)) := (calls_addHelpers hbook _).bind fun _ => ih _
    cases child with
    | none => exact hrest
    | some pid => exact (hfirst i pid).bind fun _ => (calls_note (hbook _)).bind fun _ => hrest

theorem calls_registerStages (rows : List Row) : (registerStages pgid rows).Calls A := by
  refine calls_registerEach hbook (fun i pid => ?_) rows 0
  trivial

theorem calls_registerStagesBg (jobId : ℤ) (rows : List Row) :
    (registerStagesBg jobId pgid rows).Calls A := by
  refine calls_registerEach hbook (fun i pid => ?_) rows 0
  split
  · exact calls_note (hbook _)
  · trivial

end Booking

section Closing

variable (hclose : ∀ fd, A (.close fd))
include hclose

theorem calls_closeOpt (fd : Option ℕ) : (closeOpt fd).Calls A := by
  cases fd with
  | none => trivial
  | some fd => exact ⟨hclose fd, fun _ => trivial⟩

theorem calls_closeFds (fds : List ℕ) : (closeFds (I := sh) fds).Calls A := by
  induction fds with
  | nil => trivial
  | cons fd fds ih => exact ⟨hclose fd, fun _ => ih⟩

theorem calls_closeStages (setups : List Setup) : (closeStages setups).Calls A := by
  induction setups with
  | nil => trivial
  | cons s setups ih =>
    exact (calls_closeOpt hclose _).bind fun _ => (calls_closeOpt hclose _).bind fun _ => ih

variable {stages : List CommandStage}

/-- In the background the shell only registers and closes. -/
theorem calls_backgroundParent (hbook : ∀ b, A (.book b))
    {pipefds : List (ℕ × ℕ)} {setups : List Setup} {sync : Option (ℕ × ℕ)}
    {pids : List (Option ℕ)} : (backgroundParent stages pipefds setups sync pids).Calls A := by
  refine (calls_closeFds hclose _).bind fun _ => (calls_closeStages hclose _).bind fun _ => ?_
  refine (calls_closeOpt hclose _).bind fun _ => ?_
  cases leaderOf pids with
  | none =>
    exact (calls_closeOpt hclose _).bind fun _ => (calls_note (hbook _)).bind fun _ => trivial
  | some leader =>
    refine ⟨hbook _, fun jobId => (calls_note (hbook _)).bind fun _ => ?_⟩
    refine (calls_registerStagesBg hbook jobId _).bind fun _ => ?_
    refine (calls_note (hbook _)).bind fun _ => (calls_closeOpt hclose _).bind fun _ => ?_
    exact (calls_note (hbook _)).bind fun _ => trivial

end Closing

section Waiting

theorem calls_waitOpt (hwait : ∀ pid, A (.wait pid false)) (pid : Option ℕ) :
    (waitOpt pid).Calls A := by
  cases pid with
  | none => trivial
  | some pid => exact ⟨hwait pid, fun _ => trivial⟩

theorem calls_waitStages (hwait : ∀ pid u, A (.wait pid u)) (rest : List (Setup × Option ℕ))
    (i : ℕ) (leaderStatus : Status) : (waitStages rest i leaderStatus).Calls A := by
  induction rest generalizing i leaderStatus with
  | nil => trivial
  | cons x rest ih =>
    obtain ⟨s, child⟩ := x
    have hhelper := calls_waitOpt fun pid => hwait pid false
    cases child with
    | none => exact ih _ _
    | some pid =>
      exact ⟨hwait pid true, fun _ => (hhelper _).bind fun _ => (hhelper _).bind fun _ => ih _ _⟩

variable (hclose : ∀ fd, A (.close fd)) (hwait : ∀ pid, A (.wait pid false))
include hclose hwait

theorem calls_undoStage (io : StageIo) : (undoStage io).Calls A :=
  (calls_closeOpt hclose _).bind fun _ => (calls_closeOpt hclose _).bind fun _ =>
    (calls_waitOpt hwait _).bind fun _ => calls_waitOpt hwait _

theorem calls_undoStages (setups : List Setup) : (undoStages setups).Calls A := by
  induction setups with
  | nil => trivial
  | cons s setups ih => exact (calls_undoStage hclose hwait s.io).bind fun _ => ih

end Waiting

end Calls

/-! ### Minor calls -/

/-- Calls that create and close descriptors, and messages. -/
def Minor : Call sh → Prop
  | .pipe _ | .openFile _ | .close _ | .book (.printf _) | .book (.perror _) => True
  | _ => False

theorem minor_printf (text : Str) : (printf text).Calls Minor := calls_note trivial

theorem minor_perror (text : String) : (perror text).Calls Minor := calls_note trivial

theorem minor_pipe (tag : PipeTag) : (pipe (I := sh) tag).Calls Minor := ⟨trivial, fun _ => trivial⟩

theorem minor_close (fd : ℕ) : (close (I := sh) fd).Calls Minor := ⟨trivial, fun _ => trivial⟩

theorem minor_closeOpt (fd : Option ℕ) : (closeOpt fd).Calls Minor :=
  calls_closeOpt (fun _ => trivial) fd

theorem minor_closeFds (fds : List ℕ) : (closeFds (I := sh) fds).Calls Minor :=
  calls_closeFds (fun _ => trivial) fds

theorem minor_closeStages (setups : List Setup) : (closeStages setups).Calls Minor :=
  calls_closeStages (fun _ => trivial) setups

theorem minor_openEach (files : List FileName) (fds : List ℕ) :
    (openEach files fds).Calls Minor := by
  induction files generalizing fds with
  | nil => trivial
  | cons file files ih =>
    refine ⟨trivial, fun (x : Option ℕ) => ?_⟩
    cases x with
    | none => trivial
    | some fd => exact ih _

theorem minor_openOutputFiles (files : List (Str × Bool)) :
    (openOutputFiles files).Calls Minor := by
  refine (minor_openEach _ _).bind fun x => ?_
  cases x with
  | error fds =>
    exact (minor_printf _).bind fun _ => (minor_closeFds fds).bind fun _ => trivial
  | ok fds => trivial

theorem minor_makePipes (n k : ℕ) (pipefds : List (ℕ × ℕ)) :
    (makePipes n k pipefds).Calls Minor := by
  induction n generalizing k pipefds with
  | zero => trivial
  | succ n ih =>
    refine (minor_pipe _).bind fun x => ?_
    cases x with
    | none => exact (minor_perror _).bind fun _ => trivial
    | some p => exact ih _ _

/-! ### Setting up the stages -/

/-- The helper processes of a stage. -/
def StageIo.helpers (io : StageIo) : List ℕ := io.writer.toList ++ io.reader.toList

/-- Those of all stages. -/
def helperPids (setups : List Setup) : List ℕ := setups.flatMap fun s => s.io.helpers

/-- The invariant speaks about the helpers that were forked so far; minor calls keep it,
and so does the fork of another helper. -/
structure Crew (L : Logic sh σ) (Inv : List ℕ → σ → Prop) : Prop where
  minor : ∀ {α : Type} {p : Prog sh α} {hs s}, p.Calls Minor → Inv hs s →
    L.holds p (fun _ => Inv hs) s
  fork : ∀ {α : Type} {r : Role} {k : Forked → Prog sh α} {Q : α → σ → Prop} {hs s},
    (∀ i, r ≠ .stage i) → Inv hs s →
    (∀ pid t, Inv (hs ++ [pid]) t → L.holds (k (.parent pid)) Q t) →
    (∀ t, Inv hs t → L.holds (k .failed) Q t) → L.holds (.fork r k) Q s

/-- It is enough that an effect keeps the invariant. -/
theorem crew_of_effect {E : Effect sh σ} {Inv : List ℕ → σ → Prop}
    (hminor : ∀ {c : Call sh} {hs s x t}, Minor c → E.call c s x t → Inv hs s → Inv hs t)
    (hfork : ∀ {r : Role} {hs s pid t}, (∀ i, r ≠ .stage i) → E.fork r s (some pid) t →
      Inv hs s → Inv (hs ++ [pid]) t)
    (hfailed : ∀ {r : Role} {hs s t}, E.fork r s none t → Inv hs s → Inv hs t) :
    Crew E.logic Inv where
  minor hp h := wlp_of_calls hminor hp h
  fork hr h hparent hfail :=
    ⟨fun pid t ht => hparent pid t (hfork hr ht h), fun t ht => hfail t (hfailed ht h)⟩

namespace Crew

variable {L : Logic sh σ} {Inv : List ℕ → σ → Prop} {hs : List ℕ} {s : σ} {env : Env} {i : ℕ}
  {Q : Option (ℕ × Option ℕ) → σ → Prop} {stages : List CommandStage}

/-- Go past minor calls. -/
theorem calls (hL : Crew L Inv) {p : Prog sh α} {q : α → Prog sh β} {Q : β → σ → Prop}
    (h : Inv hs s) (hp : p.Calls Minor) (hq : ∀ a t, Inv hs t → L.holds (q a) Q t) :
    L.holds (p >>= q) Q s :=
  L.bind (L.mono hq (hL.minor hp h))

/-- A helper is forked, and the shell keeps one end of its pipe. -/
theorem forkHelper (hL : Crew L Inv) {r : Role} (hr : ∀ i, r ≠ .stage i) (h : Inv hs s)
    {child : Prog sh (Option (ℕ × Option ℕ))} {fds : List ℕ} {keep drop : ℕ}
    (hok : ∀ (pid : Option ℕ) t, Inv (hs ++ pid.toList) t → Q (some (keep, pid)) t) :
    L.holds (forkHelper r child fds keep drop) Q s := by
  have hrest : ∀ (pid : Option ℕ) s, Inv (hs ++ pid.toList) s →
      L.holds (do
        closeFds fds
        close drop
        pure (some (keep, pid))) Q s := by
    intro pid s h
    refine hL.calls h (minor_closeFds _) fun _ s h => ?_
    exact hL.calls h (minor_close _) fun _ s h => L.pure (hok pid s h)
  refine hL.fork hr h (fun pid s h => hrest (some pid) s h) fun s h => hrest none s ?_
  rwa [Option.toList_none, List.append_nil]

variable {pipefds : List (ℕ × ℕ)}

theorem setupInputRedirection (hL : Crew L Inv) {files : List Str}
    (h : Inv hs s)
    (hok : ∀ fd (pid : Option ℕ) t, Inv (hs ++ pid.toList) t → Q (some (fd, pid)) t)
    (hfail : ∀ t, Inv hs t → Q none t) :
    L.holds (setupInputRedirection env i files pipefds) Q s := by
  refine hL.calls h (minor_pipe _) fun x s h => ?_
  cases x with
  | none => exact hL.calls h (minor_perror _) fun _ s h => L.pure (hfail s h)
  | some p =>
    refine hL.calls h (minor_openEach _ _) fun x s h => ?_
    cases x with
    | error fds =>
      refine hL.calls h (minor_printf _) fun _ s h => ?_
      refine hL.calls h (minor_closeFds _) fun _ s h => ?_
      refine hL.calls h (minor_close _) fun _ s h => ?_
      exact hL.calls h (minor_close _) fun _ s h => L.pure (hfail s h)
    | ok fds => exact hL.forkHelper (by simp) h fun pid s h => hok p.1 pid s h

theorem setupOutputRedirection (hL : Crew L Inv) {files : List (Str × Bool)}
    (h : Inv hs s)
    (hok : ∀ fd (pid : Option ℕ) t, Inv (hs ++ pid.toList) t → Q (some (fd, pid)) t)
    (hfail : ∀ t, Inv hs t → Q none t) :
    L.holds (setupOutputRedirection i files pipefds) Q s := by
  refine hL.calls h (minor_openOutputFiles _) fun x s h => ?_
  cases x with
  | none => exact L.pure (hfail s h)
  | some fds =>
    refine hL.calls h (minor_pipe _) fun x s h => ?_
    cases x with
    | none =>
      refine hL.calls h (minor_perror _) fun _ s h => ?_
      exact hL.calls h (minor_closeFds _) fun _ s h => L.pure (hfail s h)
    | some p => exact hL.forkHelper (by simp) h fun pid s h => hok p.2 pid s h

/-- A stage has forked the helpers that it knows. -/
theorem setupStage (hL : Crew L Inv) {st : CommandStage} (h : Inv hs s)
    {Q : StageIo × Bool → σ → Prop} (hQ : ∀ io ok t, Inv (hs ++ io.helpers) t → Q (io, ok) t) :
    L.holds (setupStage env i st pipefds) Q s := by
  have hout : ∀ (inFd writer : Option ℕ) s, Inv (hs ++ writer.toList) s →
      L.holds (setupStageOut i st pipefds inFd writer) Q s := by
    intro inFd writer s h
    have hnone : ∀ ok s, Inv (hs ++ writer.toList) s →
        L.holds (pure (⟨inFd, none, writer, none⟩, ok)) Q s := by
      intro ok s h
      refine L.pure (hQ _ ok s ?_)
      simpa [StageIo.helpers] using h
    unfold setupStageOut setupOut
    split
    · exact hnone true s h
    · refine L.bind (L.bind (hL.setupOutputRedirection h (fun fd pid s h => ?_)
        fun s h => L.pure (hnone false s h)))
      refine L.pure (L.pure (hQ _ true s ?_))
      rwa [List.append_assoc] at h
  unfold Redirect.setupStage setupIn
  split
  · exact hout none none s (by simpa using h)
  · refine L.bind (L.bind (hL.setupInputRedirection h (fun fd pid s h => ?_)
      fun s h => ?_))
    · exact L.pure (hout (some fd) pid s h)
    · exact L.pure (L.pure (hQ _ false s (by simpa [StageIo.helpers] using h)))

/-- A single command goes on with what has been set up, or it is given up. -/
theorem prepareCommand (hL : Crew L Inv) {st : CommandStage} {failed : α}
    {launch : Str → StageIo → Prog sh α} {Q : α → σ → Prop} (h : Inv [] s)
    (hlaunch : ∀ path io t, Inv io.helpers t → L.holds (do note .block; launch path io) Q t)
    (hwait : ∀ (io : StageIo) t, Inv io.helpers t →
      L.holds (waitOpt io.writer) (fun _ => Inv io.helpers) t)
    (hfail : ∀ hs t, Inv hs t → Q failed t) :
    L.holds (prepareCommand env st failed launch) Q s := by
  unfold Redirect.prepareCommand
  split
  · exact hL.calls h (minor_printf _) fun _ s h => L.pure (hfail _ s h)
  · refine L.bind (hL.setupStage h fun io ok s h => ?_)
    rw [List.nil_append] at h
    cases ok with
    | false =>
      refine hL.calls h (minor_closeOpt _) fun _ s h => ?_
      exact L.bind (L.mono (fun _ s h => L.pure (hfail _ s h)) (hwait io s h))
    | true => exact hlaunch _ io s h

/-- So have all stages, and there is one set-up for each unless the loop is aborted. -/
theorem setupStages (hL : Crew L Inv)
    {setups : List Setup} (h : Inv (helperPids setups) s) {Q : List Setup × Bool → σ → Prop}
    (hok : ∀ setups' t, setups'.length = setups.length + stages.length →
      Inv (helperPids setups') t → Q (setups', true) t)
    (hfail : ∀ setups' t, Inv (helperPids setups') t → Q (setups', false) t) :
    L.holds (setupStages env pipefds stages i setups) Q s := by
  induction stages generalizing i setups s with
  | nil => exact L.pure (hok setups s rfl h)
  | cons st stages ih =>
    refine L.bind (hL.setupStage h fun io ok s h => ?_)
    have hnext : ∀ resolved s, Inv (helperPids setups ++ io.helpers) s →
        Inv (helperPids (setups ++ [⟨io, resolved⟩])) s := by
      intro resolved s h
      simpa [helperPids] using h
    have hlen : ∀ (resolved : Option Str) (setups' : List Setup),
        setups'.length = (setups ++ [(⟨io, resolved⟩ : Setup)]).length + stages.length →
        setups'.length = setups.length + (st :: stages).length := by
      intro resolved setups' hlen
      simp only [List.length_append, List.length_cons, List.length_nil] at hlen ⊢
      omega
    cases ok with
    | false => exact L.pure (hfail _ s (hnext none s h))
    | true =>
      dsimp only
      split
      · refine hL.calls h (minor_printf _) fun _ s h => ?_
        exact ih (hnext _ s h) fun setups' t hl => hok setups' t (hlen _ setups' hl)
      · exact ih (hnext _ s h) fun setups' t hl => hok setups' t (hlen _ setups' hl)

/-- A pipeline goes on with a set-up for every stage, or it cleans up what it has set up. -/
theorem preparePipeline (hL : Crew L Inv)
    {launch : List (ℕ × ℕ) → List Setup → Prog sh ℤ} {Q : ℤ → σ → Prop} (h : Inv [] s)
    (hlaunch : ∀ pipefds setups t, setups.length = stages.length → Inv (helperPids setups) t →
      L.holds (launch pipefds setups) Q t)
    (hundo : ∀ setups t, Inv (helperPids setups) t →
      L.holds (undoStages setups) (fun _ => Inv (helperPids setups)) t)
    (habort : ∀ hs z t, Inv hs t → Q z t) :
    L.holds (preparePipeline env stages launch) Q s := by
  refine hL.calls h (minor_makePipes _ _ _) fun x s h => ?_
  obtain ⟨pipefds, ok⟩ := x
  cases ok with
  | false => exact hL.calls h (minor_closeFds _) fun _ s h => L.pure (habort _ _ s h)
  | true =>
    have hnone : Inv (helperPids []) s := h
    refine L.bind (hL.setupStages hnone (fun setups s hlen h => ?_) fun setups s h => ?_)
    · exact hlaunch pipefds setups s (by simpa using hlen) h
    · refine L.bind (L.mono (fun _ s h => ?_) (hundo setups s h))
      exact hL.calls h (minor_closeFds _) fun _ s h => L.pure (habort _ _ s h)

end Crew

/-! ### Forking the stages -/

/-- The loop that forks the stages: an invariant that speaks about the stages so far. -/
theorem wlp_forkStages {E : Effect sh σ} {Inv : List (Option ℕ) → σ → Prop}
    {child : StageProg} {zs : List (CommandStage × Setup)} {i : ℕ} {pids : List (Option ℕ)} {s : σ}
    (hskip : ∀ {pids s}, Inv pids s → Inv (pids ++ [none]) s)
    (hfork : ∀ {pids pid s t}, Inv pids s → E.fork (.stage pids.length) s (some pid) t →
      wlp E (setpgid pid (joinGroup pids.length pid pids)) (fun _ => Inv (pids ++ [some pid])) t)
    (hfailed : ∀ {pids s t}, Inv pids s → E.fork (.stage pids.length) s none t →
      wlp E (perror "fork") (fun _ => Inv pids) t)
    (h : Inv pids s) (hi : i = pids.length) {Q : List (Option ℕ) → σ → Prop}
    (hQ : ∀ pids' t, pids'.length = pids.length + zs.length → Inv pids' t → Q pids' t) :
    wlp E (forkStages child zs i pids) Q s := by
  induction zs generalizing i pids s with
  | nil => exact hQ pids s rfl h
  | cons z zs ih =>
    obtain ⟨st, x⟩ := z
    subst hi
    have hnext : ∀ (pid : Option ℕ) s, Inv (pids ++ [pid]) s →
        wlp E (forkStages child zs (pids.length + 1) (pids ++ [pid])) Q s := by
      intro pid s h
      refine ih h (by simp) fun pids' t hlen => hQ pids' t ?_
      simp only [List.length_append, List.length_cons, List.length_nil] at hlen ⊢
      omega
    unfold forkStages
    split
    · exact hnext none s (hskip h)
    · refine wlp_bind.mpr ⟨fun pid t ht => ?_, fun t ht => ?_⟩
      · exact wlp_seq (hfork h ht) fun _ t h => hnext (some pid) t h
      · exact wlp_seq (hfailed h ht) fun _ t h => hnext none t (hskip h)

end Redirect
end RuShell
