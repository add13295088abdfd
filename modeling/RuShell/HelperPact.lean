import RuShell.RedirectFds
import RuShell.Lib.PosixMain

/-!
# What the shell and its helpers keep to

The shell is the only process that forks, so it knows what each of its children is for.
A helper inherits the descriptors that the shell has open for the redirections of earlier
stages, and keeps them until it ends.  A writer fills its own pipe and nobody else does; a
reader empties its own.

## Main definitions

* `KidEnd` — the pipe ends that a child can have.
* `WaitsFor` — what is known when the shell waits for a helper: which one it is, and either
  the command of its stage has been forked, or the launch is being undone and the shell has
  closed the descriptors of the stages up to this one.
* `helperPact` — what holds at every call of the shell and of its children.

## Main results

* `kwp_writerChild`, `kwp_readerChild`, `kwp_stageChild`, `kwp_stageChildBg`,
  `kwp_commandChild`, `kwp_commandChildBg` — the children keep the pact.
* `canDie_small`, `canDie_writer`, `canDie_reader` — when a helper can run to
  its end.
-/

namespace RuShell
namespace Redirect

open Lib.Posix
open RuShell.Segment

variable {lim : Limits} {faults : Prop} {f g : Fds sh} {env : Env} {stages : List CommandStage}
  {a : ℕ} {fd : Option ℕ} {fds : List ℕ} {e : End sh} {c : Call sh}

/-! ### Tables of a kind -/

/-- Every open descriptor refers to an end of the kind. -/
def Only (E : End sh → Prop) (f : Fds sh) : Prop := ∀ fd e, f fd = some e → E e

section Only

variable {E E' : End sh → Prop}

theorem Only.mono (h : Only E f) (hE : ∀ e, E e → E' e) : Only E' f :=
  fun fd e he => hE e (h fd e he)

theorem Only.closed (h : Only E f) (fds : List ℕ) : Only E (closed fds f) :=
  fun fd e he => h fd e (of_closed he).2

theorem Only.close (h : Only E f) (a : ℕ) : Only E (Function.update f a none) :=
  fun fd e he => h fd e (of_update_none he).2

theorem Only.noEnd (h : Only E f) (he : ¬ E e) : NoEnd e f :=
  fun fd hfd => he (h fd e hfd)

theorem Only.dupTo (h : Only E f) (fd : Option ℕ) (dst : ℕ) : Only E (dupTo fd dst f) := by
  intro a e he
  by_contra hE
  exact (h.noEnd hE).dupTo fd dst a he

theorem Only.opened (h : Only E f) (hfile : ∀ n, E (.file n))
    (hg : Opened f fds g) : Only E g := by
  intro fd e he
  rcases hg.cases he with ⟨n, rfl⟩ | ⟨-, hold⟩
  · exact hfile n
  · exact h fd e hold

theorem Only.plugged (h : Only E f) (he : E e)
    (hg : Plugged e f fd g) : Only E g := by
  intro a e' ha
  rcases hg.cases ha with ⟨-, rfl⟩ | hold
  · exact he
  · exact h a e' hold

theorem Only.piped {t : PipeTag} {b : ℕ} (h : Only E f) (hread : E (.read t))
    (hwrite : E (.write t)) : Only E (piped t a b f) := by
  intro fd e he
  rcases piped_cases he with ⟨-, rfl⟩ | ⟨-, -, rfl⟩ | ⟨-, -, hold⟩
  · exact hwrite
  · exact hread
  · exact h fd e hold

end Only

/-! ### What is kept -/

/-- The ends that the shell has while the stages before `i` are set up. -/
def ShellEnd (i : ℕ) : End sh → Prop
  | .read (.input j) => j < i
  | .write (.output j) => j < i
  | .write (.input _) => False
  | .read (.output _) => False
  | _ => True

/-- The ends that a child can have.  Its own pipe apart, a helper has what the shell had
when it was forked. -/
def KidEnd : Role → End sh → Prop
  | .writer i, .read (.input j) => j ≤ i
  | .writer i, .write (.input j) => j = i
  | .writer i, .write (.output j) => j < i
  | .writer _, .read (.output _) => False
  | .reader i, .read (.input j) => j ≤ i
  | .reader _, .write (.input _) => False
  | .reader i, .write (.output j) => j ≤ i
  | .reader i, .read (.output j) => j = i
  | .stage _, .write (.input _) => False
  | .stage _, .read (.output _) => False
  | _, _ => True

/-- What the shell has is passed on. -/
theorem shellEnd_writer {i : ℕ} (he : ShellEnd i e) : KidEnd (.writer i) e := by
  cases e with
  | read t => cases t <;> first | exact Nat.le_of_lt he | exact he
  | write t => cases t <;> first | exact he | exact he.elim
  | file n => trivial

theorem shellEnd_reader {i : ℕ} (he : ShellEnd i e) : KidEnd (.reader i) e := by
  cases e with
  | read t => cases t <;> first | exact Nat.le_of_lt he | exact False.elim he | trivial
  | write t => cases t <;> first | exact Nat.le_of_lt he | exact he
  | file n => trivial

theorem shellEnd_stage {i j : ℕ} (he : ShellEnd i e) : KidEnd (.stage j) e := by
  cases e with
  | read t | write t => cases t <;> trivial
  | file n => trivial

/-- Where a child can wait: a writer at its pipe, with no copy of the other end, and a
reader likewise. -/
def KidStop : Role → Call sh → Fds sh → Prop
  | .writer i, .feed fd _, f => f fd = some (.write (.input i)) ∧ NoEnd (.read (.input i)) f
  | .reader i, .drain fd, f => f fd = some (.read (.output i)) ∧ NoEnd (.write (.output i)) f
  | .stage _, .exec _, _ => True
  | .stage _, .readByte _, _ => True
  | _, .pipe _, _ => False
  | _, c, _ => c.stops = false

/-- What holds at every call of a child. -/
def KidAt (r : Role) (c : Call sh) (f : Fds sh) : Prop := Only (KidEnd r) f ∧ KidStop r c f

/-- The shell has no end of the redirections of the stages up to `i`. -/
def ClearedEnd (i : ℕ) : End sh → Prop
  | .read (.input j) => i < j
  | .write (.output j) => i < j
  | _ => True

/-- What is known when the shell waits for the helper `h`. -/
def WaitsFor (h : ℕ) (v : View sh) : Prop :=
  ∃ j i, h = j + 1 ∧ (v.kids[j]? = some (.writer i) ∨ v.kids[j]? = some (.reader i)) ∧
    (Role.stage i ∈ v.kids ∨
      (∀ r ∈ v.kids, ∃ k, r = .writer k ∨ r = .reader k) ∧ Only (ClearedEnd i) v.fds)

/-- What holds at every call of the shell. -/
def MainAt : Call sh → View sh → Prop
  | .wait h false, v => WaitsFor h v
  | .pipe _, v => v.late = false
  | .feed _ _, _ | .drain _, _ | .exec _, _ | .exit _, _ | .readByte _, _ => False
  | _, _ => True

/-- The bytes of the input files of a stage. -/
def inputSize (env : Env) (inputFiles : List Str) : ℕ := (inputFiles.map env.size).sum

theorem inputSize_zip_le (env : Env) (fds : List ℕ) (files : List Str) :
    inputSize env ((fds.zip files).map Prod.snd) ≤ inputSize env files := by
  induction fds generalizing files with
  | nil => exact Nat.zero_le _
  | cons fd fds ih =>
    cases files with
    | nil => exact le_refl _
    | cons file files => exact Nat.add_le_add_left (ih files) (env.size file)

/-- The size of the input of a stage. -/
def stageInput (env : Env) (stages : List CommandStage) (i : ℕ) : ℕ :=
  match stages[i]? with
  | none => 0
  | some st => inputSize env st.inputFiles

/-- What the children of the shell are for. -/
def HasRole (stages : List CommandStage) : Role → Prop
  | .shell => False
  | .stage i | .writer i => i < stages.length
  | .reader i => ∃ st, stages[i]? = some st ∧ st.outputFiles ≠ []

/-- What holds at every call of the shell and of its children. -/
def helperPact (env : Env) (stages : List CommandStage) : Pact sh where
  main := MainAt
  kid := KidAt
  pipe
    | .writer i => some (.input i)
    | _ => none
  bytes
    | .writer i => stageInput env stages i
    | _ => 0
  role := HasRole stages

theorem helperPact_sound (env : Env) (stages : List CommandStage) :
    (helperPact env stages).Sound where
  less := by
    intro r fd n f h
    cases r <;> exact h
  own := by
    intro r fd n f t h ht
    cases r with
    | writer i =>
      have hfd : f fd = some (.write (.input i)) := h.2.1
      rw [ht] at hfd
      cases hfd
      rfl
    | _ => cases h.2
  exec := by
    intro r n f h fd
    cases r with
    | stage i => exact ⟨h.1.close fd, trivial⟩
    | _ => cases h.2
  produce := by
    intro r n f fd t h ht r' hr'
    cases r' with
    | writer i =>
      cases hr'
      cases r with
      | stage j => exact h.1 fd _ ht
      | _ => cases h.2
    | _ => cases hr'
  inj := by
    intro r r' t h h'
    cases r with
    | writer i =>
      cases r' with
      | writer j =>
        cases h
        cases h'
        rfl
      | _ => cases h'
    | _ => cases h
  early h := h
  noRead h := h
  noDrain h := h
  noFeed h := h
  noExec h := h
  noExit h := h

/-! ### Children -/

section Children

variable {r : Role} {b : ℕ} {io : StageIo} {path : Str} {α : Type}

/-- A call at which a child does not wait. -/
theorem kidAt_of_only (hc : c.stops = false) (hpipe : ∀ t, c ≠ .pipe t)
    (h : Only (KidEnd r) f) : KidAt r c f := by
  refine ⟨h, ?_⟩
  cases c with
  | pipe t => exact absurd rfl (hpipe t)
  | _ => cases r <;> first | exact hc | cases hc

variable {Q : Unit → Fds sh → ℕ → Prop} {pipefds : List (ℕ × ℕ)} {st : CommandStage}

theorem kwp_close {fd : ℕ} (h : Only (KidEnd r) f) (hQ : Q () (Function.update f fd none) b) :
    kwp lim faults (helperPact env stages) r (close fd) Q f b := by
  refine kwp_call (kidAt_of_only rfl nofun h) rfl fun x f' hf' => ?_
  have hf' : f' = Function.update f fd none := hf'
  rwa [hf']

theorem kwp_closeFds (h : Only (KidEnd r) f) (hQ : Q () (closed fds f) b) :
    kwp lim faults (helperPact env stages) r (closeFds fds) Q f b := by
  induction fds generalizing f with
  | nil =>
    rw [closed_nil] at hQ
    exact hQ
  | cons fd fds ih =>
    rw [closed_cons] at hQ
    exact kwp_bind.mpr (kwp_close h (ih (h.close fd) hQ))

theorem kwp_closeOpt (h : Only (KidEnd r) f) (hQ : Q () (closed fd.toList f) b) :
    kwp lim faults (helperPact env stages) r (closeOpt fd) Q f b := by
  cases fd with
  | none =>
    rw [Option.toList_none, closed_nil] at hQ
    exact hQ
  | some fd =>
    rw [Option.toList_some, closed_cons, closed_nil] at hQ
    exact kwp_close h hQ

theorem kwp_dupOpt {dst : ℕ} (hdst : dst < 3) (h : Only (KidEnd r) f)
    (hQ : Q () (dupTo fd dst f) b) :
    kwp lim faults (helperPact env stages) r (dupOpt fd dst) Q f b := by
  cases fd with
  | none => exact hQ
  | some fd =>
    refine kwp_call (kidAt_of_only rfl nofun h) rfl fun x f' hf' => ?_
    have hlim : dst < lim.openMax := by
      unfold Limits.openMax
      omega
    have hf' : f' = if dst < lim.openMax then dup f fd dst else f := hf'
    rw [if_pos hlim] at hf'
    rw [hf']
    exact hQ

theorem kwp_book {b' : Book} {Q : ℤ → Fds sh → ℕ → Prop} (h : Only (KidEnd r) f)
    (hQ : ∀ z, Q z f b) : kwp lim faults (helperPact env stages) r (book (I := sh) b') Q f b := by
  refine kwp_call (kidAt_of_only rfl nofun h) rfl fun x f' hf' => ?_
  have hf' : f' = f := hf'
  rw [hf']
  exact hQ x

theorem kwp_note {b' : Book} (h : Only (KidEnd r) f) (hQ : Q () f b) :
    kwp lim faults (helperPact env stages) r (note b') Q f b :=
  kwp_bind.mpr (kwp_book h fun _ => hQ)

theorem kwp_setpgid {pid : ℕ} {pgid : Option ℕ} (h : Only (KidEnd r) f) (hQ : Q () f b) :
    kwp lim faults (helperPact env stages) r (setpgid pid pgid) Q f b := by
  refine kwp_bind.mpr (kwp_book h fun z => ?_)
  split
  · exact kwp_note h hQ
  · exact hQ

/-- The copy loop of the writer keeps to its budget. -/
theorem kwp_feedFiles {i out : ℕ} {files : List (ℕ × Str)} (h : Only (KidEnd (.writer i)) f)
    (hout : f out = some (.write (.input i))) (hread : NoEnd (.read (.input i)) f)
    (hfiles : ∀ file ∈ files, file.1 ≠ out) (hb : inputSize env (files.map Prod.snd) ≤ b)
    (hQ : ∀ f b, Only (KidEnd (.writer i)) f → Q () f b) :
    kwp lim faults (helperPact env stages) (.writer i) (feedFiles env out files) Q f b := by
  induction files generalizing f b with
  | nil => exact hQ f b h
  | cons file files ih =>
    have hsum : inputSize env ((file :: files).map Prod.snd) =
        env.size file.2 + inputSize env (files.map Prod.snd) := rfl
    rw [hsum] at hb
    have hne : out ≠ file.1 := (hfiles file List.mem_cons_self).symm
    refine kwp_bind.mpr ⟨⟨h, hout, hread⟩, ?_, fun x f' hf' => ?_⟩
    · change env.size file.2 ≤ b
      omega
    · have hf' : f' = f := hf'
      subst hf'
      refine kwp_bind.mpr (kwp_close h ?_)
      refine ih (h.close _) ?_ (hread.update _)
        (fun file' hfile' => hfiles file' (List.mem_cons_of_mem _ hfile')) ?_
      · rwa [Function.update_of_ne hne]
      · change _ ≤ b - env.size file.2
        omega

theorem kwp_writerChild {i b' : ℕ} {files : List (ℕ × Str)}
    {Q : α → Fds sh → ℕ → Prop} (hf : Only (ShellEnd i) f)
    (hP : PipesOpen pipefds f) (hb' : f b' = none) (hab : a ≠ b')
    (hg : Opened (piped (.input i) a b' f) fds g) (hfiles : ∀ file ∈ files, file.1 ∈ fds)
    (hb : inputSize env (files.map Prod.snd) ≤ b) :
    kwp lim faults (helperPact env stages) (.writer i)
      (writerChild (α := α) env pipefds (a, b') files) Q g b := by
  have hkid : Only (KidEnd (.writer i)) g := by
    have hkid : Only (KidEnd (.writer i)) f := hf.mono fun e he => shellEnd_writer he
    exact (hkid.piped (t := .input i) (le_refl i) rfl).opened (fun _ => trivial) hg
  have hbg : piped (.input i) a b' f b' = some (.write (.input i)) := piped_write
  have hbfds : b' ∉ fds := by
    intro hmem
    rw [hg.fresh b' hmem] at hbg
    cases hbg
  -- the only copy of the read end is the one that is closed first
  have hread : NoEnd (.read (.input i)) (Function.update g a none) := by
    intro fd he
    obtain ⟨hfa, he⟩ := of_update_none he
    rcases hg.cases he with ⟨n, hn⟩ | ⟨-, he⟩
    · cases hn
    rcases piped_cases he with ⟨-, hwrite⟩ | ⟨-, hfd', -⟩ | ⟨-, -, he⟩
    · cases hwrite
    · exact hfa hfd'
    · exact absurd (hf fd _ he) (lt_irrefl i)
  refine kwp_bind.mpr (kwp_close hkid ?_)
  refine kwp_bind.mpr (kwp_closeFds (hkid.close a) ?_)
  have hbP : b' ∉ pipeEnds pipefds := fun hmem => hP b' hmem hb'
  refine kwp_bind.mpr (kwp_feedFiles ((hkid.close a).closed _) ?_ (hread.closed _) ?_ hb ?_)
  · rw [closed_of_notMem hbP, Function.update_of_ne hab.symm, hg.same b' hbfds, hbg]
  · intro file hfile heq
    have hmem := hfiles file hfile
    rw [heq] at hmem
    exact hbfds hmem
  · intro f b hf
    refine kwp_bind.mpr (kwp_close hf ?_)
    exact kwp_exit (kidAt_of_only rfl nofun (hf.close _))

theorem kwp_readerChild {i b' : ℕ} {Q : α → Fds sh → ℕ → Prop}
    (hf : Only (KidEnd (.reader i)) f) (hwrite : NoEnd (.write (.output i)) f)
    (hP : PipesOpen pipefds f) (ha : f a = none) (hab : a ≠ b')
    (hg : Opened f fds g) :
    kwp lim faults (helperPact env stages) (.reader i)
      (readerChild (α := α) pipefds (a, b') fds) Q (piped (.output i) a b' g) b := by
  have hkid : Only (KidEnd (.reader i)) (piped (.output i) a b' g) :=
    Only.piped (hf.opened (fun _ => trivial) hg) rfl (le_refl i)
  have hown : NoEnd (.write (.output i)) (Function.update (piped (.output i) a b' g) b' none) := by
    intro fd he
    obtain ⟨hfb, he⟩ := of_update_none he
    rcases piped_cases he with ⟨hfd', -⟩ | ⟨-, -, hread⟩ | ⟨-, -, he⟩
    · exact hfb hfd'
    · cases hread
    rcases hg.cases he with ⟨n, hn⟩ | ⟨-, he⟩
    · cases hn
    · exact hwrite fd he
  have haP : a ∉ pipeEnds pipefds := fun hmem => hP a hmem ha
  refine kwp_bind.mpr (kwp_close hkid ?_)
  refine kwp_bind.mpr (kwp_closeFds (hkid.close b') ?_)
  have honly := (hkid.close b').closed (pipeEnds pipefds)
  refine kwp_bind.mpr (kwp_call ⟨honly, ?_, hown.closed _⟩ rfl fun x f' hf' => ?_)
  · change closed (pipeEnds pipefds) (Function.update (piped (.output i) a b' g) b' none) a = _
    rw [closed_of_notMem haP, Function.update_of_ne hab, piped_read hab]
  · have hf' : f' = closed (pipeEnds pipefds)
        (Function.update (piped (.output i) a b' g) b' none) := hf'
    rw [hf']
    refine kwp_bind.mpr (kwp_close honly ?_)
    refine kwp_bind.mpr (kwp_closeFds (honly.close _) ?_)
    exact kwp_exit (kidAt_of_only rfl nofun ((honly.close _).closed _))

/-- The stage processes wait only to pass the gate and to become their command. -/
theorem kwp_execStage {i : ℕ} {Q : α → Fds sh → ℕ → Prop}
    (h : Only (KidEnd (.stage i)) f) :
    kwp lim faults (helperPact env stages) (.stage i) (execStage (α := α) path st) Q f b := by
  refine kwp_bind.mpr (kwp_call ⟨h, trivial⟩ rfl fun x f' hf' => ?_)
  have hf' : f' = f := hf'
  rw [hf']
  refine kwp_bind.mpr (kwp_note h ?_)
  exact kwp_exit (kidAt_of_only rfl nofun h)

theorem kwp_wireStage {i i' : ℕ} (h : Only (KidEnd (.stage i)) f)
    (hQ : ∀ f, Only (KidEnd (.stage i)) f → Q () f b) :
    kwp lim faults (helperPact env stages) (.stage i) (wireStage i' st io pipefds) Q f b := by
  have h₁ := h.dupTo (stageStdin i' st io pipefds) 0
  have h₂ := h₁.dupTo (stageStdout i' st io pipefds) 1
  refine kwp_bind.mpr (kwp_dupOpt (by omega) h (kwp_bind.mpr (kwp_dupOpt (by omega) h₁ ?_)))
  refine kwp_bind.mpr (kwp_closeFds h₂ (kwp_bind.mpr (kwp_closeOpt (h₂.closed _) ?_)))
  exact kwp_closeOpt ((h₂.closed _).closed _) (hQ _ (((h₂.closed _).closed _).closed _))

theorem kwp_passGate {i : ℕ} {sync : Option (ℕ × ℕ)} (h : Only (KidEnd (.stage i)) f)
    (hQ : ∀ f, Only (KidEnd (.stage i)) f → Q () f b) :
    kwp lim faults (helperPact env stages) (.stage i) (passGate sync) Q f b := by
  cases sync with
  | none => exact hQ f h
  | some sync =>
    refine kwp_bind.mpr (kwp_call ⟨h, trivial⟩ rfl fun x f' hf' => ?_)
    have hf' : f' = f := hf'
    rw [hf']
    exact kwp_close h (hQ _ (h.close _))

theorem kwp_stageChild {i : ℕ} {pids : List (Option ℕ)}
    {Q : α → Fds sh → ℕ → Prop} (h : Only (KidEnd (.stage i)) f) :
    kwp lim faults (helperPact env stages) (.stage i)
      (stageChild (α := α) pipefds i st io path pids) Q f b := by
  refine kwp_bind.mpr (kwp_note h (kwp_bind.mpr (kwp_note h (kwp_bind.mpr ?_))))
  exact kwp_wireStage h fun f hf => kwp_execStage hf

theorem kwp_stageChildBg {i : ℕ} {sync : Option (ℕ × ℕ)}
    {pids : List (Option ℕ)} {Q : α → Fds sh → ℕ → Prop}
    (h : Only (KidEnd (.stage i)) f) :
    kwp lim faults (helperPact env stages) (.stage i)
      (stageChildBg (α := α) pipefds sync i st io path pids) Q f b := by
  refine kwp_bind.mpr (kwp_note h (kwp_bind.mpr (kwp_setpgid h (kwp_bind.mpr ?_))))
  refine kwp_wireStage h fun f hf => kwp_bind.mpr (kwp_passGate hf fun f hf => ?_)
  exact kwp_execStage hf

/-- A single command takes the ends of its redirections. -/
theorem kwp_takeEnds {q : Prog sh α} {Q : α → Fds sh → ℕ → Prop}
    (h : Only (KidEnd (.stage 0)) f)
    (hq : ∀ f, Only (KidEnd (.stage 0)) f →
      kwp lim faults (helperPact env stages) (.stage 0) q Q f b) :
    kwp lim faults (helperPact env stages) (.stage 0) (do
      dupOpt io.inFd 0
      closeOpt io.inFd
      dupOpt io.outFd 1
      closeOpt io.outFd
      q) Q f b := by
  have h₁ := (h.dupTo io.inFd 0).closed io.inFd.toList
  refine kwp_bind.mpr (kwp_dupOpt (by omega) h (kwp_bind.mpr (kwp_closeOpt (h.dupTo _ _) ?_)))
  refine kwp_bind.mpr (kwp_dupOpt (by omega) h₁ (kwp_bind.mpr (kwp_closeOpt (h₁.dupTo _ _) ?_)))
  exact hq _ ((h₁.dupTo _ _).closed _)

theorem kwp_commandChild {Q : α → Fds sh → ℕ → Prop}
    (h : Only (KidEnd (.stage 0)) f) :
    kwp lim faults (helperPact env stages) (.stage 0) (commandChild (α := α) path st io) Q f b := by
  refine kwp_bind.mpr (kwp_note h (kwp_bind.mpr (kwp_note h ?_)))
  exact kwp_takeEnds h fun f hf => kwp_execStage hf

theorem kwp_commandChildBg {sync : Option (ℕ × ℕ)} {Q : α → Fds sh → ℕ → Prop}
    (h : Only (KidEnd (.stage 0)) f) :
    kwp lim faults (helperPact env stages) (.stage 0)
      (commandChildBg (α := α) sync path st io) Q f b := by
  refine kwp_bind.mpr (kwp_note h (kwp_bind.mpr (kwp_setpgid h (kwp_bind.mpr ?_))))
  refine kwp_closeOpt h (kwp_takeEnds (h.closed _) fun f hf => kwp_bind.mpr ?_)
  exact kwp_passGate hf fun f hf => kwp_execStage hf

end Children

/-! ### How helpers end -/

section Ending

variable {Q : ℤ → View sh → Prop} {w : World sh ℤ} {v : View sh} {i j : ℕ} {p q : Process sh ℤ}

/-- What a child holds, whatever it does. -/
theorem kept_only (h : Kept lim True (helperPact env stages) Q w v)
    (hp : w.procs[j + 1]? = some p) : Only (KidEnd p.role) p.fds := by
  rcases h.kid_cases hp with ⟨-, hnone⟩ | ⟨n, -, hkid⟩ | ⟨c, k, -, hkid⟩
  · intro fd e he
    rw [hnone] at he
    cases he
  · exact hkid.1
  · exact hkid.1

theorem goes_writer (hkid : KidAt (.writer i) c q.fds)
    (hfeed : ∀ fd n, c = .feed fd (n + 1) → w.held lim (.read (.input i)) = true →
      w.fill (PipeTag.input i) < lim.cap) : Goes lim False w q c := by
  cases c with
  | feed fd n =>
    intro hn t hfd hheld
    have hown : q.fds fd = some (.write (.input i)) := hkid.2.1
    rw [hown] at hfd
    cases hfd
    obtain ⟨m, rfl⟩ := Nat.exists_eq_succ_of_ne_zero hn.ne'
    exact hfeed fd m rfl hheld
  | pipe t => exact hkid.2
  | wait q u | readByte fd | drain fd | exec n => cases hkid.2
  | _ => exact rfl

theorem goes_reader (hkid : KidAt (.reader i) c q.fds)
    (hdrain : ∀ fd, c = .drain fd → w.held lim (.write (.output i)) = false) :
    Goes lim False w q c := by
  cases c with
  | drain fd =>
    intro t hfd
    have hown : q.fds fd = some (.read (.output i)) := hkid.2.1
    rw [hown] at hfd
    cases hfd
    exact hdrain fd rfl
  | pipe t => exact hkid.2
  | wait q u | readByte fd | feed fd n | exec n => cases hkid.2
  | _ => exact rfl

/-- A writer whose input fits into the pipe can run to its end. -/
theorem canDie_small (h : Kept lim True (helperPact env stages) Q w v)
    (hp : w.procs[j + 1]? = some p) (hrole : p.role = .writer i) (halive : p.code ≠ .dead)
    (hsize : stageInput env stages i ≤ lim.cap) : CanDie lim False w (j + 1) := by
  refine h.canDie (helperPact_sound env stages) hp halive (fun n f hkid => ?_)
    fun w' q c k h' _ hq hrole' hcode hkid => ?_
  · rw [hrole] at hkid
    cases hkid.2
  · rw [hrole] at hrole' hkid
    refine goes_writer hkid fun fd n hc _ => ?_
    subst hc
    have hroom := h'.room hq hcode (t := PipeTag.input i) (by rw [hrole']; rfl)
    rw [hrole'] at hroom
    have hroom : w'.fill (PipeTag.input i) + (n + 1) ≤ stageInput env stages i := hroom
    omega

/-- Nobody but the process `pid` holds the end. -/
def Alone (w : World sh ℤ) (pid : ℕ) (e : End sh) : Prop :=
  ∀ i q, w.procs[i]? = some q → i ≠ pid → NoEnd e q.fds

/-- An end that the others do not hold, and the process neither, is not held. -/
theorem Alone.held_eq_false {w' : World sh ℤ} {pid : ℕ}
    (h : Alone w pid e) (hsame : ∀ i ≠ pid, w'.procs[i]? = w.procs[i]?)
    (hq : w'.procs[pid]? = some q) (hself : NoEnd e q.fds) : w'.held lim e = false := by
  by_contra hheld
  rw [Bool.not_eq_false] at hheld
  obtain ⟨i, q', fd, hq', -, hfd⟩ := exists_holder hheld
  by_cases hi : i = pid
  · subst hi
    rw [hq] at hq'
    cases hq'
    exact hself fd hfd
  · rw [hsame i hi] at hq'
    exact h i q' hq' hi fd hfd

/-- A writer can run to its end, by the signal `SIGPIPE` if need be, when nobody can read
what it writes. -/
theorem canDie_writer (h : Kept lim True (helperPact env stages) Q w v)
    (hp : w.procs[j + 1]? = some p) (hrole : p.role = .writer i) (halive : p.code ≠ .dead)
    (halone : Alone w (j + 1) (.read (.input i))) : CanDie lim False w (j + 1) := by
  refine h.canDie (helperPact_sound env stages) hp halive (fun n f hkid => ?_)
    fun w' q c k h' hsame hq _ hcode hkid => ?_
  · rw [hrole] at hkid
    cases hkid.2
  · rw [hrole] at hkid
    refine goes_writer hkid fun fd n hc hheld => ?_
    subst hc
    rw [halone.held_eq_false hsame hq hkid.2.2] at hheld
    cases hheld

/-- A reader can run to its end when nobody can write any more. -/
theorem canDie_reader (h : Kept lim True (helperPact env stages) Q w v)
    (hp : w.procs[j + 1]? = some p) (hrole : p.role = .reader i) (halive : p.code ≠ .dead)
    (halone : Alone w (j + 1) (.write (.output i))) : CanDie lim False w (j + 1) := by
  refine h.canDie (helperPact_sound env stages) hp halive (fun n f hkid => ?_)
    fun w' q c k h' hsame hq _ hcode hkid => ?_
  · rw [hrole] at hkid
    cases hkid.2
  · rw [hrole] at hkid
    refine goes_reader hkid fun fd hc => ?_
    subst hc
    exact halone.held_eq_false hsame hq hkid.2.2

end Ending

end Redirect
end RuShell
