import RuShell.LaunchRules
import RuShell.Lib.PosixSound

/-!
# Descriptor tables of the launching functions

What the functions of `Redirect` do to the descriptor table of the process that
runs them, and what the tables of the helper processes are when these start to
copy data.  A helper setup leaves exactly one descriptor behind in the shell, the
end the command will use; everything else it opens it closes again.

## Main definitions

* `Opened f fds g` — `g` is `f` with files opened at `fds`.
* `Plugged e f fd g` — `g` is `f` with at most one more descriptor, for `e`.
* `Inherits` — the tables of the helpers.
* `ShellTable`, `Reaches` — how the shell is started, and the states it gets to.

## Main results

* `wp_setupInputRedirection`, `wp_setupOutputRedirection`, `wp_setupStage`.
* `wp_backgroundCommand` — what is left to show of a single command in the background.
-/

namespace RuShell
namespace Redirect

open Lib.Posix
open RuShell.Segment

variable {lim : Limits} {faults : Prop} {A : Role → Call sh → Fds sh → Prop} {r : Role}
  {f g h : Fds sh} {e' : End sh} {α : Type}

/-! ### Small pieces -/

variable {Q : Role → Unit → Fds sh → Prop} {fd : Option ℕ} {pipefds : List (ℕ × ℕ)} {fds : List ℕ}
  {e : End sh} {a b : ℕ}

/-- The bookkeeping calls, which do not touch descriptors. -/
def Fdless : Call sh → Prop
  | .book _ => True
  | _ => False

theorem wp_fdless {p : Prog sh Unit} (hp : p.Calls Fdless) :
    wp (fdLocal lim faults) A r p Q f ↔ Q r () f := by
  induction p with
  | pure a => exact Iff.rfl
  | call c k ih =>
    cases c with
    | book b =>
      have hk : wp (fdLocal lim faults) A r (.call (.book b) k) Q f ↔ ∀ z : ℤ, Q r () f :=
        (wp_bind (p := book (I := sh) b)).trans
          (wp_book.trans (forall_congr' fun z => ih z (hp.2 z)))
      exact hk.trans (forall_const ℤ)
    | _ => exact hp.1.elim
  | fork r' k ih => exact hp.elim

theorem fdless_book : ∀ b, Fdless (.book b) := fun _ => trivial

@[simp] theorem wp_note {b : Book} :
    wp (fdLocal lim faults) A r (note b) Q f ↔ Q r () f := wp_fdless (calls_note (fdless_book b))

@[simp] theorem wp_printf {text : Str} :
    wp (fdLocal lim faults) A r (printf text) Q f ↔ Q r () f := wp_note

@[simp] theorem wp_perror {text : String} :
    wp (fdLocal lim faults) A r (perror text) Q f ↔ Q r () f := wp_note

@[simp] theorem wp_setpgid {pid : ℕ} {pgid : Option ℕ} :
    wp (fdLocal lim faults) A r (setpgid pid pgid) Q f ↔ Q r () f :=
  wp_fdless (calls_setpgid (fdless_book _) fun _ => fdless_book _)

@[simp] theorem wp_addHelpers {pgid : ℕ} {io : StageIo} :
    wp (fdLocal lim faults) A r (addHelpers pgid io) Q f ↔ Q r () f :=
  wp_fdless (calls_addHelpers fdless_book io)

@[simp] theorem wp_closeOpt :
    wp (fdLocal lim faults) A r (closeOpt fd) Q f ↔ Q r () (closed fd.toList f) := by
  cases fd with
  | none => rw [closeOpt, wp_pure, Option.toList_none, closed_nil]
  | some a => rw [closeOpt, wp_close, Option.toList_some, closed_cons, closed_nil]

theorem wp_waitOpt {pid : Option ℕ} (hA : ∀ pid, A r (.wait pid false) f) (hQ : Q r () f) :
    wp (fdLocal lim faults) A r (waitOpt pid) Q f := by
  cases pid with
  | none => exact hQ
  | some pid =>
    unfold waitOpt
    rw [wp_bind, wp_wait]
    exact ⟨hA pid, fun _ => hQ⟩

/-- The table after `dup2` of a descriptor that may not exist. -/
def dupTo (fd : Option ℕ) (dst : ℕ) (f : Fds sh) : Fds sh :=
  match fd with
  | none => f
  | some a => dup f a dst

theorem wp_dupOpt {dst : ℕ} (hdst : dst < 3) :
    wp (fdLocal lim faults) A r (dupOpt fd dst) Q f ↔ Q r () (dupTo fd dst f) := by
  cases fd with
  | none => exact Iff.rfl
  | some a => exact wp_dup2 hdst

@[simp] theorem wp_closeAllPipes :
    wp (fdLocal lim faults) A r (closeAllPipes pipefds) Q f ↔
      Q r () (closed (pipeEnds pipefds) f) := wp_closeFds _

theorem wp_execStage {path : Str} {st : CommandStage} {Q : Role → α → Fds sh → Prop}
    (hA : ∀ n, A r (.exec n) f) : wp (fdLocal lim faults) A r (execStage path st) Q f := by
  unfold execStage
  simp only [wp_bind, wp_exec, wp_perror, wp_exit, and_true]
  exact hA _

/-! ### Tables with something more -/

theorem closed_of_mem {fd : ℕ} (h : fd ∈ fds) : closed fds f fd = none :=
  if_pos h

theorem closed_of_notMem {fd : ℕ} (h : fd ∉ fds) : closed fds f fd = f fd :=
  if_neg h

/-- What is open after closing was open before. -/
theorem of_closed {fd : ℕ} (h : closed fds f fd = some e) :
    fd ∉ fds ∧ f fd = some e := by
  by_cases hfd : fd ∈ fds
  · rw [closed_of_mem hfd] at h
    cases h
  · rw [closed_of_notMem hfd] at h
    exact ⟨hfd, h⟩

/-- An end in an updated table is the new one or was there before. -/
theorem of_update {v : Option (End sh)} {fd : ℕ} (h : Function.update f a v fd = some e) :
    (fd = a ∧ v = some e) ∨ (fd ≠ a ∧ f fd = some e) := by
  by_cases hfd : fd = a
  · subst hfd
    exact Or.inl ⟨rfl, Function.update_self fd v f ▸ h⟩
  · exact Or.inr ⟨hfd, Function.update_of_ne hfd v f ▸ h⟩

theorem of_update_none {fd : ℕ} (h : Function.update f a none fd = some e) :
    fd ≠ a ∧ f fd = some e :=
  (of_update h).resolve_left fun h => nomatch h.2

/-- `g` has nothing open that `f` does not have. -/
def Within (g f : Fds sh) : Prop := ∀ ⦃fd e⦄, g fd = some e → f fd = some e

/-- `g` is `f` with files opened at `fds`. -/
structure Opened (f : Fds sh) (fds : List ℕ) (g : Fds sh) : Prop where
  fresh : ∀ fd ∈ fds, f fd = none
  isFile : ∀ fd ∈ fds, ∃ n, g fd = some (.file n)
  same : ∀ fd ∉ fds, g fd = f fd

theorem Opened.nil : Opened f [] f := ⟨by simp, by simp, fun _ _ => rfl⟩

theorem Opened.notMem (h : Opened f fds g) (ha : g a = none) : a ∉ fds := by
  intro hmem
  obtain ⟨n, hn⟩ := h.isFile a hmem
  rw [ha] at hn
  cases hn

theorem Opened.snoc {n : FileName} (h : Opened f fds g) (ha : g a = none) :
    Opened f (fds ++ [a]) (Function.update g a (some (.file n))) := by
  have hmem : a ∉ fds := h.notMem ha
  refine ⟨fun fd hfd => ?_, fun fd hfd => ?_, fun fd hfd => ?_⟩
  · rcases List.mem_append.mp hfd with hfd | hfd
    · exact h.fresh fd hfd
    · rw [List.mem_singleton.mp hfd, ← h.same a hmem]
      exact ha
  · rcases List.mem_append.mp hfd with hold | hnew
    · obtain ⟨m, hm⟩ := h.isFile fd hold
      have hne : fd ≠ a := by
        rintro rfl
        exact hmem hold
      exact ⟨m, by rwa [Function.update_of_ne hne]⟩
    · rw [List.mem_singleton.mp hnew, Function.update_self]
      exact ⟨n, rfl⟩
  · simp only [List.mem_append, List.mem_singleton, not_or] at hfd
    rw [Function.update_of_ne hfd.2, h.same fd hfd.1]

/-- Closing the files gives the old table back. -/
theorem Opened.closed_eq (h : Opened f fds g) : closed fds g = f := by
  funext fd
  by_cases hfd : fd ∈ fds
  · rw [closed_of_mem hfd, h.fresh fd hfd]
  · rw [closed_of_notMem hfd, h.same fd hfd]

/-- An end is either an opened file or was there before. -/
theorem Opened.cases (h : Opened f fds g) {fd : ℕ} (he : g fd = some e) :
    (∃ n, e = .file n) ∨ (fd ∉ fds ∧ f fd = some e) := by
  by_cases hfd : fd ∈ fds
  · obtain ⟨n, hn⟩ := h.isFile fd hfd
    rw [hn] at he
    exact Or.inl ⟨n, (Option.some.inj he).symm⟩
  · exact Or.inr ⟨hfd, h.same fd hfd ▸ he⟩

theorem wp_openEach (files : List FileName) (fds : List ℕ) (h : Opened f fds g)
    {Q : Role → Except (List ℕ) (List ℕ) → Fds sh → Prop}
    (herror : ∀ fds g, Opened f fds g → Q r (.error fds) g)
    (hok : ∀ fds g, Opened f fds g → Q r (.ok fds) g) :
    wp (fdLocal lim faults) A r (openEach files fds) Q g := by
  induction files generalizing fds g with
  | nil => exact hok fds g h
  | cons file files ih =>
    unfold openEach
    rw [wp_bind]
    refine wp_openFile (fun a ha => ?_) ?_
    · exact ih (fds ++ [a]) (h.snoc ha)
    · exact herror fds g h

/-- `g` is `f` with at most one more descriptor, which refers to `e`. -/
def Plugged (e : End sh) (f : Fds sh) (fd : Option ℕ) (g : Fds sh) : Prop :=
  match fd with
  | none => g = f
  | some a => f a = none ∧ g = Function.update f a (some e)

theorem Plugged.cases (h : Plugged e f fd g) (hb : g b = some e') :
    (fd = some b ∧ e' = e) ∨ f b = some e' := by
  cases fd with
  | none => exact Or.inr (h ▸ hb)
  | some a =>
    obtain ⟨-, rfl⟩ := h
    rcases of_update hb with ⟨rfl, he⟩ | ⟨-, hb⟩
    · exact Or.inl ⟨rfl, (Option.some.inj he).symm⟩
    · exact Or.inr hb

/-- What was open stays as it is. -/
theorem Plugged.keeps (h : Plugged e f fd g) : Within f g := by
  intro b e' hb
  cases fd with
  | none => rwa [h]
  | some a =>
    obtain ⟨ha, rfl⟩ := h
    have hba : b ≠ a := by
      rintro rfl
      rw [ha] at hb
      cases hb
    rwa [Function.update_of_ne hba]

theorem Plugged.self (h : Plugged e f (some a) g) : g a = some e := by
  obtain ⟨-, rfl⟩ := h
  exact Function.update_self ..

/-- No descriptor refers to the end. -/
def NoEnd (e : End sh) (f : Fds sh) : Prop := ∀ fd, f fd ≠ some e

theorem NoEnd.closed (h : NoEnd e f) (fds : List ℕ) : NoEnd e (closed fds f) :=
  fun fd he => h fd (of_closed he).2

theorem NoEnd.update (h : NoEnd e f) (a : ℕ) :
    NoEnd e (Function.update f a none) :=
  fun fd he => h fd (of_update_none he).2

theorem NoEnd.dupTo (h : NoEnd e f) (fd : Option ℕ) (dst : ℕ) :
    NoEnd e (dupTo fd dst f) := by
  cases fd with
  | none => exact h
  | some a =>
    intro b he
    change dup f a dst b = some e at he
    unfold dup at he
    cases ha : f a with
    | none =>
      simp only [ha] at he
      exact h b he
    | some e' =>
      simp only [ha] at he
      rcases of_update he with ⟨-, he⟩ | ⟨-, he⟩
      · exact h a (ha.trans he)
      · exact h b he

/-- One more descriptor for something else. -/
theorem NoEnd.plug (h : NoEnd e f) (hg : Plugged e' f fd g) (hne : e ≠ e') :
    NoEnd e g := by
  intro b he
  rcases hg.cases he with ⟨-, heq⟩ | he
  · exact hne heq
  · exact h b he

/-! ### A new pipe -/

/-- `f` with both ends of a new pipe. -/
def piped (t : PipeTag) (a b : ℕ) (f : Fds sh) : Fds sh :=
  Function.update (Function.update f a (some (.read t))) b (some (.write t))

/-- What was open stays as it is. -/
theorem piped_of_some {t : PipeTag} (ha : f a = none) (hb : f b = none) :
    Within f (piped t a b f) := by
  intro fd e he
  have hfa : fd ≠ a := by
    rintro rfl
    rw [ha] at he
    cases he
  have hfb : fd ≠ b := by
    rintro rfl
    rw [hb] at he
    cases he
  rw [piped, Function.update_of_ne hfb, Function.update_of_ne hfa, he]

theorem piped_read {t : PipeTag} (hab : a ≠ b) : piped t a b f a = some (.read t) := by
  rw [piped, Function.update_of_ne hab, Function.update_self]

theorem piped_write {t : PipeTag} : piped t a b f b = some (.write t) :=
  Function.update_self ..

theorem piped_cases {t : PipeTag} {fd : ℕ} (he : piped t a b f fd = some e) :
    (fd = b ∧ e = .write t) ∨ (fd ≠ b ∧ fd = a ∧ e = .read t) ∨
      (fd ≠ b ∧ fd ≠ a ∧ f fd = some e) := by
  rcases of_update he with ⟨hfb, heq⟩ | ⟨hfb, he⟩
  · exact Or.inl ⟨hfb, (Option.some.inj heq).symm⟩
  rcases of_update he with ⟨hfa, heq⟩ | ⟨hfa, he⟩
  · exact Or.inr (Or.inl ⟨hfb, hfa, (Option.some.inj heq).symm⟩)
  · exact Or.inr (Or.inr ⟨hfb, hfa, he⟩)

section Piped

variable {t : PipeTag} {a b : ℕ} (ha : f a = none) (hb : f b = none) (hab : a ≠ b)
include ha hb hab

theorem plugged_read : Plugged (.read t) f (some a) (Function.update (piped t a b f) b none) := by
  refine ⟨ha, ?_⟩
  unfold piped
  rw [Function.update_idem]
  refine Function.update_eq_self_iff.mpr ?_
  rw [Function.update_of_ne hab.symm, hb]

theorem plugged_write : Plugged (.write t) f (some b) (Function.update (piped t a b f) a none) := by
  refine ⟨hb, ?_⟩
  unfold piped
  rw [Function.update_comm hab.symm, Function.update_idem]
  rw [← ha, Function.update_eq_self]

theorem unpiped :
    Function.update (Function.update (piped t a b f) a none) b none = f := by
  rw [(plugged_write ha hb hab).2, Function.update_idem, ← hb, Function.update_eq_self]

end Piped

/-! ### The helpers -/

/-- The ends of the pipes between the stages are open. -/
def PipesOpen (pipefds : List (ℕ × ℕ)) (f : Fds sh) : Prop := ∀ fd ∈ pipeEnds pipefds, f fd ≠ none

theorem pipesOpen_nil (f : Fds sh) : PipesOpen [] f := fun _ hfd => absurd hfd List.not_mem_nil

theorem PipesOpen.mono (h : PipesOpen pipefds f) (hfg : Within f g) : PipesOpen pipefds g := by
  intro fd hfd hnone
  obtain ⟨e, he⟩ := Option.ne_none_iff_exists'.mp (h fd hfd)
  rw [hfg he] at hnone
  cases hnone

/-- Besides `e` and files, a process has only what it has inherited from a process
with the table `f`, outside the pipes of the pipeline. -/
def Inherits (f : Fds sh) (pipefds : List (ℕ × ℕ)) (e : End sh) (h : Fds sh) : Prop :=
  ∀ fd e', h fd = some e' →
    e' = e ∨ (∃ n, e' = .file n) ∨ (fd ∉ pipeEnds pipefds ∧ f fd = some e')

theorem wp_feedFiles {env : Env} {out : ℕ} (files : List (ℕ × Str))
    (hA : ∀ h n, Inherits f pipefds e h → h out = some e → A r (.feed out n) h)
    (hQ : ∀ h, Q r () h) (hout : ∀ file ∈ files, file.1 ≠ out) (hinh : Inherits f pipefds e h)
    (he : h out = some e) :
    wp (fdLocal lim faults) A r (feedFiles env out files) Q h := by
  induction files generalizing h with
  | nil => exact hQ h
  | cons file files ih =>
    unfold feedFiles
    rw [wp_bind, wp_feed, wp_bind, wp_close]
    refine ⟨hA h _ hinh he, ih (fun file hf => hout file (List.mem_cons_of_mem _ hf)) ?_ ?_⟩
    · exact fun fd e' he => hinh fd e' (of_update_none he).2
    · have hne : out ≠ file.1 := (hout file List.mem_cons_self).symm
      rwa [Function.update_of_ne hne]

theorem wp_writerChild {env : Env} {i : ℕ} {files : List (ℕ × Str)}
    {Q : Role → α → Fds sh → Prop} (hP : PipesOpen pipefds f) (hb : f b = none)
    (hab : a ≠ b) (hg : Opened (piped (.input i) a b f) fds g)
    (hfiles : ∀ file ∈ files, file.1 ∈ fds)
    (hA : ∀ h n, Inherits f pipefds (.write (.input i)) h → h b = some (.write (.input i)) →
      A r (.feed b n) h) :
    wp (fdLocal lim faults) A r (writerChild env pipefds (a, b) files) Q g := by
  have hbg : piped (.input i) a b f b = some (.write (.input i)) := piped_write
  have hbfds : b ∉ fds := by
    intro hmem
    rw [hg.fresh b hmem] at hbg
    cases hbg
  unfold writerChild
  rw [wp_bind, wp_close, wp_bind, wp_closeAllPipes, wp_bind]
  refine wp_feedFiles files hA (fun h => ?_) (fun file hf => ?_) (fun fd e' he => ?_) ?_
  · rw [wp_bind, wp_close]
    exact wp_exit
  · intro heq
    have hmem := hfiles file hf
    rw [heq] at hmem
    exact hbfds hmem
  · obtain ⟨hfd, he⟩ := of_closed he
    obtain ⟨hfa, he⟩ := of_update_none he
    rcases hg.cases he with hfile | ⟨-, he⟩
    · exact Or.inr (Or.inl hfile)
    rcases piped_cases he with ⟨-, hwrite⟩ | ⟨-, hfd', -⟩ | ⟨-, -, he⟩
    · exact Or.inl hwrite
    · exact absurd hfd' hfa
    · exact Or.inr (Or.inr ⟨hfd, he⟩)
  · have hbP : b ∉ pipeEnds pipefds := fun hmem => hP b hmem hb
    rw [closed_of_notMem hbP, Function.update_of_ne hab.symm, hg.same b hbfds, hbg]

/-- A helper is forked; the table of the shell does not depend on whether that works. -/
theorem wp_forkHelper {r' : Role} {child : Prog sh (Option (ℕ × Option ℕ))} {keep drop : ℕ}
    {Q : Role → Option (ℕ × Option ℕ) → Fds sh → Prop}
    (hchild : wp (fdLocal lim faults) A r' child Q g)
    (hparent : ∀ pid, Q r (some (keep, pid)) (Function.update (closed fds g) drop none)) :
    wp (fdLocal lim faults) A r (forkHelper r' child fds keep drop) Q g := by
  unfold forkHelper
  rw [wp_bind, wp_fork]
  refine ⟨hchild, fun pid => ?_, fun _ => ?_⟩
  · simp only [wp_bind, wp_closeFds, wp_close, wp_pure]
    exact hparent _
  · simp only [wp_bind, wp_closeFds, wp_close, wp_pure]
    exact hparent _

theorem wp_setupInputRedirection {env : Env} {i : ℕ} {inputFiles : List Str}
    {Q : Role → Option (ℕ × Option ℕ) → Fds sh → Prop} (hP : PipesOpen pipefds f)
    (hA : ∀ h out n, Inherits f pipefds (.write (.input i)) h →
      h out = some (.write (.input i)) → A (.writer i) (.feed out n) h) (hnone : Q r none f)
    (hsome : ∀ a pid g, Plugged (.read (.input i)) f (some a) g → Q r (some (a, pid)) g) :
    wp (fdLocal lim faults) A r (setupInputRedirection env i inputFiles pipefds) Q f := by
  unfold setupInputRedirection
  rw [wp_bind]
  refine wp_pipe (fun a b ha hb hab => ?_) (fun _ => ?_)
  · rw [wp_bind]
    refine wp_openEach _ [] (f := piped (.input i) a b f) Opened.nil (fun fds g hg => ?_)
      (fun fds g hg => ?_)
    · simp only [wp_bind, wp_printf, wp_closeFds, wp_close, wp_pure]
      rw [hg.closed_eq, unpiped ha hb hab]
      exact hnone
    · refine wp_forkHelper ?_ fun pid => ?_
      · refine wp_writerChild hP hb hab hg (fun file hf => ?_) (fun h n => hA h b n)
        exact (List.of_mem_zip hf).1
      · rw [hg.closed_eq]
        exact hsome a pid _ (plugged_read ha hb hab)
  · simp only [wp_bind, wp_perror, wp_pure]
    exact hnone

theorem wp_openOutputFiles {outputFiles : List (Str × Bool)}
    {Q : Role → Option (List ℕ) → Fds sh → Prop} (hnone : Q r none f)
    (hsome : ∀ fds g, Opened f fds g → Q r (some fds) g) :
    wp (fdLocal lim faults) A r (openOutputFiles outputFiles) Q f := by
  unfold openOutputFiles
  rw [wp_bind]
  refine wp_openEach _ [] (f := f) Opened.nil (fun fds g hg => ?_) (fun fds g hg => ?_)
  · simp only [wp_bind, wp_printf, wp_closeFds, wp_pure]
    rw [hg.closed_eq]
    exact hnone
  · exact hsome fds g hg

theorem wp_readerChild {i : ℕ} {Q : Role → α → Fds sh → Prop} (hg : Opened f fds g)
    (hA : ∀ h, Inherits f pipefds (.read (.output i)) h → A r (.drain a) h) :
    wp (fdLocal lim faults) A r (readerChild pipefds (a, b) fds) Q (piped (.output i) a b g) := by
  unfold readerChild
  simp only [wp_bind, wp_close, wp_closeAllPipes, wp_drain, wp_closeFds, wp_exit, and_true]
  refine hA _ fun fd e' he => ?_
  obtain ⟨hfd, he⟩ := of_closed he
  obtain ⟨hfb, he⟩ := of_update_none he
  rcases piped_cases he with ⟨hfd', -⟩ | ⟨-, -, hread⟩ | ⟨-, -, he⟩
  · exact absurd hfd' hfb
  · exact Or.inl hread
  rcases hg.cases he with hfile | ⟨-, he⟩
  · exact Or.inr (Or.inl hfile)
  · exact Or.inr (Or.inr ⟨hfd, he⟩)

/-- Opening files and then plugging one more end: closing the files leaves the end. -/
theorem Opened.closed_plugged (hg : Opened f fds g) (hh : Plugged e g (some a) h) :
    Plugged e f (some a) (closed fds h) := by
  obtain ⟨ha, rfl⟩ := hh
  have hmem : a ∉ fds := hg.notMem ha
  refine ⟨hg.same a hmem ▸ ha, ?_⟩
  funext fd
  by_cases hfa : fd = a
  · subst hfa
    rw [closed_of_notMem hmem, Function.update_self, Function.update_self]
  · rw [Function.update_of_ne hfa]
    by_cases hfd : fd ∈ fds
    · rw [closed_of_mem hfd, hg.fresh fd hfd]
    · rw [closed_of_notMem hfd, Function.update_of_ne hfa, hg.same fd hfd]

/-- The order in which descriptors are closed does not matter. -/
theorem update_closed (fds : List ℕ) (a : ℕ) :
    Function.update (closed fds f) a none = closed fds (Function.update f a none) := by
  funext fd
  by_cases hfa : fd = a
  · subst hfa
    rw [Function.update_self]
    unfold closed
    rw [Function.update_self, ite_self]
  · rw [Function.update_of_ne hfa]
    unfold closed
    rw [Function.update_of_ne hfa]

theorem wp_setupOutputRedirection {i : ℕ} {outputFiles : List (Str × Bool)}
    {Q : Role → Option (ℕ × Option ℕ) → Fds sh → Prop}
    (hA : ∀ h fd, Inherits f pipefds (.read (.output i)) h → A (.reader i) (.drain fd) h)
    (hnone : Q r none f)
    (hsome : ∀ b pid g, Plugged (.write (.output i)) f (some b) g → Q r (some (b, pid)) g) :
    wp (fdLocal lim faults) A r (setupOutputRedirection i outputFiles pipefds) Q f := by
  unfold setupOutputRedirection
  rw [wp_bind]
  refine wp_openOutputFiles ?_ (fun fds g hg => ?_)
  · exact hnone
  rw [wp_bind]
  refine wp_pipe (fun a b ha hb hab => ?_) (fun _ => ?_)
  · refine wp_forkHelper (wp_readerChild hg fun h => hA h a) fun pid => ?_
    rw [update_closed]
    exact hsome b pid _ (hg.closed_plugged (plugged_write ha hb hab))
  · simp only [wp_bind, wp_perror, wp_closeFds, wp_pure]
    rw [hg.closed_eq]
    exact hnone

/-! ### A stage -/

/-- The table after both halves of a stage. -/
def StageOpen (i : ℕ) (f : Fds sh) (io : StageIo) (g : Fds sh) : Prop :=
  ∃ f₁, Plugged (.read (.input i)) f io.inFd f₁ ∧ Plugged (.write (.output i)) f₁ io.outFd g

theorem StageOpen.keeps {i : ℕ} {io : StageIo} (h : StageOpen i f io g) : Within f g := by
  obtain ⟨f₁, hin, hout⟩ := h
  exact fun _ _ hb => hout.keeps (hin.keeps hb)

/-- What the caller of `setupStage` has to know of the helpers. -/
structure HelpersOk (A : Role → Call sh → Fds sh → Prop) (f : Fds sh)
    (pipefds : List (ℕ × ℕ)) (i : ℕ) (st : CommandStage) : Prop where
  feed : st.inputFiles ≠ [] → ∀ h out n, Inherits f pipefds (.write (.input i)) h →
    h out = some (.write (.input i)) → A (.writer i) (.feed out n) h
  drain : st.outputFiles ≠ [] → ∀ f₁ inFd h fd, Plugged (.read (.input i)) f inFd f₁ →
    Inherits f₁ pipefds (.read (.output i)) h → A (.reader i) (.drain fd) h

section Stage

variable {env : Env} {i : ℕ} {st : CommandStage} {pipefds : List (ℕ × ℕ)}

theorem wp_setupIn {Q : Role → Option (Option ℕ × Option ℕ) → Fds sh → Prop}
    (hP : PipesOpen pipefds f)
    (hA : st.inputFiles ≠ [] → ∀ h out n, Inherits f pipefds (.write (.input i)) h →
      h out = some (.write (.input i)) → A (.writer i) (.feed out n) h)
    (hnone : Q r none f)
    (hsome : ∀ inFd writer g, (inFd = none ↔ st.inputFiles = []) →
      Plugged (.read (.input i)) f inFd g → Q r (some (inFd, writer)) g) :
    wp (fdLocal lim faults) A r (setupIn env i st pipefds) Q f := by
  unfold setupIn
  split
  · rename_i hfiles
    exact hsome none none f ⟨fun _ => hfiles, fun _ => rfl⟩ rfl
  · rename_i hfiles
    rw [wp_bind]
    refine wp_setupInputRedirection hP (hA hfiles) hnone ?_
    intro a pid g hg
    exact hsome (some a) pid g ⟨nofun, fun h => absurd h hfiles⟩ hg

theorem wp_setupOut {Q : Role → Option (Option ℕ × Option ℕ) → Fds sh → Prop}
    (hA : st.outputFiles ≠ [] → ∀ h fd, Inherits f pipefds (.read (.output i)) h →
      A (.reader i) (.drain fd) h)
    (hnone : Q r none f)
    (hsome : ∀ outFd reader g, (st.outputFiles = [] → outFd = none) →
      Plugged (.write (.output i)) f outFd g → Q r (some (outFd, reader)) g) :
    wp (fdLocal lim faults) A r (setupOut i st pipefds) Q f := by
  unfold setupOut
  split
  · exact hsome none none f (fun _ => rfl) rfl
  · rename_i hfiles
    rw [wp_bind]
    refine wp_setupOutputRedirection (hA hfiles) hnone ?_
    intro b pid g hg
    exact hsome (some b) pid g (fun h => absurd h hfiles) hg

theorem wp_setupStage {Q : Role → StageIo × Bool → Fds sh → Prop}
    (hP : PipesOpen pipefds f) (hA : HelpersOk A f pipefds i st)
    (hfail : ∀ inFd writer g, Plugged (.read (.input i)) f inFd g →
      Q r ({ inFd := inFd, writer := writer }, false) g)
    (hok : ∀ io g, (st.outputFiles = [] → io.outFd = none) →
      (io.inFd = none ↔ st.inputFiles = []) → StageOpen i f io g → Q r (io, true) g) :
    wp (fdLocal lim faults) A r (setupStage env i st pipefds) Q f := by
  unfold setupStage
  rw [wp_bind]
  refine wp_setupIn hP hA.feed ?_ ?_
  · exact hfail none none f rfl
  · intro inFd writer f₁ hinFd hf₁
    unfold setupStageOut
    rw [wp_bind]
    refine wp_setupOut (fun hfiles h fd => hA.drain hfiles f₁ inFd h fd hf₁) ?_ ?_
    · exact hfail inFd writer f₁ hf₁
    · intro outFd reader g hout hg
      exact hok _ g hout hinFd ⟨f₁, hf₁, hg⟩

end Stage

/-! ### A single command in the background -/

section Single

variable {env : Env} {st : CommandStage} {sync : Option (ℕ × ℕ)}

/-- Only the child has work left after the set-up. -/
theorem wp_executeWithRedirectionBg {Q : Role → Option ℕ → Fds sh → Prop}
    (hA : HelpersOk A f [] 0 st) (hwait : ∀ pid g, A r (.wait pid false) g)
    (hchild : ∀ path io g, (st.outputFiles = [] → io.outFd = none) →
      (io.inFd = none ↔ st.inputFiles = []) → StageOpen 0 f io g →
      wp (fdLocal lim faults) A (Role.stage 0) (commandChildBg sync path st io) Q g)
    (hQ : ∀ x g, Q r x g) :
    wp (fdLocal lim faults) A r (executeWithRedirectionBg env st sync) Q f := by
  unfold executeWithRedirectionBg prepareCommand
  cases env.resolve (commandName st) with
  | none =>
    simp only [wp_bind, wp_printf, wp_pure]
    exact hQ _ _
  | some path =>
    simp only [wp_bind]
    refine wp_setupStage (pipesOpen_nil f) hA (fun inFd writer g hg => ?_)
      (fun io g hout hin hopen => ?_)
    · simp only [wp_bind, wp_closeOpt]
      exact wp_waitOpt (fun pid => hwait pid _) (hQ _ _)
    · simp only [wp_bind, wp_note]
      refine wp_bind.mpr (wp_fork.mpr ⟨hchild path io g hout hin hopen, fun pid => ?_, fun _ => ?_⟩)
      · simp only [commandParentBg, wp_bind, wp_setpgid, wp_addHelpers, wp_closeOpt, wp_note,
          wp_pure]
        exact hQ _ _
      · unfold undoStage
        simp only [wp_bind, wp_perror, wp_closeOpt]
        refine wp_waitOpt (fun pid => hwait pid _) (wp_waitOpt (fun pid => hwait pid _) ?_)
        simp only [wp_note, wp_pure]
        exact hQ _ _

/-- `g` is `f` with the gate at `sync`. -/
def Gated (f : Fds sh) (sync : Option (ℕ × ℕ)) (g : Fds sh) : Prop :=
  match sync with
  | none => g = f
  | some (a, b) => f a = none ∧ f b = none ∧ a ≠ b ∧ g = piped .gate a b f

theorem wp_backgroundCommand {Q : Role → ℤ → Fds sh → Prop}
    (hcmd : ∀ sync g (Q' : Role → Option ℕ → Fds sh → Prop), Gated f sync g →
      (∀ x g, Q' r x g) → wp (fdLocal lim faults) A r (executeWithRedirectionBg env st sync) Q' g)
    (hQ : ∀ x g, Q r x g) : wp (fdLocal lim faults) A r (backgroundCommand env st) Q f := by
  unfold backgroundCommand
  rw [wp_bind]
  refine wp_pipe (fun a b ha hb hab => wp_bind.mpr ?_) (fun _ => wp_bind.mpr ?_)
  · refine hcmd (some (a, b)) _ _ ⟨ha, hb, hab, rfl⟩ fun x g => ?_
    cases x <;> simp [wp_bind, wp_book, hQ]
  · refine hcmd none f _ rfl fun x g => ?_
    cases x <;> simp [wp_bind, wp_book, hQ]

end Single

/-! ### Runs of the shell -/

/-- The table the shell is started with. -/
structure ShellTable (f : Fds sh) : Prop where
  std : ∀ fd < 3, ∃ n, f fd = some (.file n)
  files : ∀ fd e, f fd = some e → ∃ n, e = .file n

/-- The shell, started with the table `f`, and its children get to `w`. -/
def Reaches (lim : Limits) (faults exts : Prop) (p : Prog sh ℤ) (f : Fds sh) (as : List (Act sh))
    (w : World sh ℤ) : Prop :=
  Lib.Run (Steps (I := sh) lim faults exts) (start (I := sh) Role.shell p f) as w

/-- A run that can be evaluated, and what there is to see at its end. -/
theorem exists_reaches {exts : Prop} {p : Prog sh ℤ} {as : List (Act sh)}
    {P : World sh ℤ → Prop} [DecidablePred P] (has : ∀ a ∈ as, a.Allowed faults exts)
    (h : ((as.foldlM (step (I := sh) lim) (start Role.shell p f)).any
      fun w => decide (P w)) = true) : ∃ w, Reaches lim faults exts p f as w ∧ P w := by
  obtain ⟨w, hfold, hw⟩ := (Option.any_eq_true _ _).mp h
  exact ⟨w, run_of_foldlM has hfold, of_decide_eq_true hw⟩

/-- Nothing but the terminal is open. -/
def terminal : Fds sh := fun fd => if fd < 3 then some (.file (.std fd)) else none

theorem shellTable_terminal : ShellTable terminal := by
  refine ⟨fun fd hfd => ⟨.std fd, if_pos hfd⟩, fun fd e he => ?_⟩
  unfold terminal at he
  split at he
  · exact ⟨.std fd, (Option.some.inj he).symm⟩
  · cases he

end Redirect
end RuShell
