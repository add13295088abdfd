import RuShell.PipeEnds
import RuShell.Gate

/-!
# The standard input of background commands

The comment above `execute_with_redirection_bg` gives a background command
`/dev/null` to read, so that it never competes with the shell for the terminal.
No code opens `/dev/null`: a stage reads its input files if it has any, the pipe
from the stage before it otherwise, and the first stage is left with the
descriptor it inherited.

The table at `execv` is followed from the shell's: setting up the stages leaves
descriptor `0` alone (`StdinInv`), and a stage then makes one `dup2` onto it
(`wired_stdin`, `stdinAt_commandChildBg`).

## Main definitions

* `stdinEnd` — what a stage reads.
* `StdinAt` — what is known of the processes where they can stop.

## Main results

* `stdinAt_executeBackground` — every process of a background launch.
* `background_stdin` — **a stage reads the terminal exactly if it is the first
  one and has no input file**.
-/

namespace RuShell
namespace Redirect

open Lib.Posix
open RuShell.Segment

variable {lim : Limits} {faults : Prop} {f g : Fds sh} {pipefds : List (ℕ × ℕ)} {env : Env}
  {stages : List CommandStage} {i : ℕ} {st : CommandStage}

/-! ### What a stage reads -/

/-- What stage `i` reads if the shell was started with the table `f`: the pipe its
input files are copied into, the pipe from the stage before it, or what the shell
reads. -/
def stdinEnd (f : Fds sh) (i : ℕ) (st : CommandStage) : Option (End sh) :=
  if st.inputFiles ≠ [] then some (.read (.input i))
  else if 0 < i then some (.read (.link (i - 1)))
  else f 0

theorem stdinEnd_ne_iff (hf : ShellTable f) :
    stdinEnd f i st ≠ f 0 ↔ st.inputFiles ≠ [] ∨ 0 < i := by
  obtain ⟨n, hn⟩ := hf.std 0 (by omega)
  unfold stdinEnd
  rw [hn]
  by_cases hfiles : st.inputFiles = []
  · rw [if_neg (not_not_intro hfiles)]
    by_cases hpos : 0 < i
    · simp [hpos]
    · simp [hpos, hfiles]
  · simp [hfiles]

/-- What is known of the processes at the calls where they can stop: a stage is
executed with its own standard input, and only the writer of stage `i` writes to the
pipe of its input. -/
def StdinAt (f : Fds sh) (stages : List CommandStage) : Role → Call sh → Fds sh → Prop
  | .stage i, .exec _, h => ∃ st, stages[i]? = some st ∧ h 0 = stdinEnd f i st
  | .writer i, .feed fd _, h => h fd = some (.write (.input i))
  | _, .feed _ _, _ => False
  | _, _, _ => True

theorem helpersOk_stdin : HelpersOk (StdinAt f stages) g pipefds i st where
  feed _ _ _ _ _ hfd := hfd
  drain _ _ _ _ _ _ _ := trivial

/-- The gate is not the standard input. -/
theorem stdinAt_passGate {α : Type} {sync : Option (ℕ × ℕ)} {path : Str}
    {Q : Role → α → Fds sh → Prop} (hst : stages[i]? = some st)
    (hstdin : g 0 = stdinEnd f i st) (hsync : ∀ p, sync = some p → 2 < p.1) :
    wp (fdLocal lim faults) (StdinAt f stages) (Role.stage i) (do
      passGate sync
      execStage path st) Q g := by
  cases sync with
  | none => exact wp_execStage fun _ => ⟨st, hst, hstdin⟩
  | some p =>
    have hp := hsync p rfl
    unfold passGate
    simp only [wp_bind, wp_readByte, wp_close]
    refine ⟨trivial, wp_execStage fun _ => ⟨st, hst, ?_⟩⟩
    rw [Function.update_of_ne (by omega), hstdin]

/-! ### A single command -/

/-- The single command makes the calls of a stage in another order. -/
theorem stdinAt_commandChildBg {α : Type} {sync : Option (ℕ × ℕ)} {path : Str} {io : StageIo}
    {Q : Role → α → Fds sh → Prop} (hg : Links [] g) (hio : IoOpen 0 io g)
    (hin : io.inFd = none ↔ st.inputFiles = []) (hstd : g 0 = f 0)
    (hsync : ∀ p, sync = some p → 2 < p.1 ∧ g p.2 = some (.write .gate)) :
    wp (fdLocal lim faults) (StdinAt f [st]) (Role.stage 0) (commandChildBg sync path st io)
      Q g := by
  obtain ⟨n, hn⟩ := hg.std 0 (by omega)
  obtain ⟨hinFd, houtFd⟩ := hio.notMem hn
  -- closing the write end of the gate is not closing what is read later
  have hkeep : ∀ fd e, g fd = some e → e ≠ .write .gate →
      closed (sync.map Prod.snd).toList g fd = some e := by
    intro fd e he hne
    rw [closed_of_notMem, he]
    intro hmem
    obtain ⟨p, hp, rfl⟩ := Option.map_eq_some_iff.mp (Option.mem_toList.mp hmem)
    rw [(hsync p hp).2] at he
    cases he
    exact hne rfl
  unfold commandChildBg
  simp only [wp_bind, wp_note, wp_setpgid, wp_closeOpt, wp_dupOpt (show 0 < 3 by omega),
    wp_dupOpt (show 1 < 3 by omega)]
  rw [← wp_bind]
  refine stdinAt_passGate rfl ?_ fun p hp => (hsync p hp).1
  rw [closed_of_notMem houtFd, dupTo_of_ne (by omega), closed_of_notMem hinFd]
  unfold stdinEnd
  cases hfd : io.inFd with
  | none =>
    rw [if_neg (not_not_intro (hin.mp hfd)), if_neg (lt_irrefl 0), ← hstd, hn]
    refine hkeep 0 _ hn fun heq => ?_
    cases heq
  | some a =>
    have hfiles : st.inputFiles ≠ [] := by
      intro hnil
      rw [hin.mpr hnil] at hfd
      cases hfd
    rw [if_pos hfiles]
    refine dupTo_self (hkeep a _ (hio.inFd a hfd) fun heq => ?_)
    cases heq

theorem stdinAt_backgroundCommand (hf : ShellTable f) :
    wp (fdLocal lim faults) (StdinAt f [st]) Role.shell (backgroundCommand env st)
      (fun _ _ _ => True) f := by
  refine wp_backgroundCommand (fun sync f₁ Q' hf₁ hQ' => ?_) (fun _ _ => trivial)
  refine wp_executeWithRedirectionBg helpersOk_stdin (fun _ _ => trivial)
    (fun path io g _ hin hopen => ?_) hQ'
  obtain ⟨n, hn⟩ := hf.std 0 (by omega)
  refine stdinAt_commandChildBg (hopen.links (hf₁.links hf.links)) hopen.ioOpen hin ?_
    fun p hp => ⟨hf₁.two_lt hf.links p hp, ?_⟩
  · rw [hn]
    exact hopen.keeps (hf₁.keeps hn)
  · subst hp
    obtain ⟨-, -, -, rfl⟩ := hf₁
    exact hopen.keeps (Function.update_self ..)

/-! ### Pipelines -/

/-- A wired stage reads what it should. -/
theorem wired_stdin {io : StageIo} (hg : Links pipefds g) (hio : IoOpen i io g)
    (hin : io.inFd = none ↔ st.inputFiles = []) (hstd : g 0 = f 0) (hi : i ≤ pipefds.length) :
    wired i st io pipefds g 0 = stdinEnd f i st := by
  rw [wired_std st hg hio (by omega), dupTo_of_ne (by omega : (0 : ℕ) ≠ 1)]
  unfold stageStdin stdinEnd
  by_cases hfiles : st.inputFiles = []
  · rw [if_neg (not_not_intro hfiles), if_neg (not_not_intro hfiles)]
    by_cases hpos : 0 < i
    · obtain ⟨p, hp⟩ : ∃ p, pipefds[i - 1]? = some p :=
        ⟨_, List.getElem?_eq_getElem (by omega : i - 1 < pipefds.length)⟩
      rw [if_pos hpos, if_pos hpos, hp]
      exact dupTo_self (hg.read _ _ hp)
    · rw [if_neg hpos, if_neg hpos]
      exact hstd
  · rw [if_pos hfiles, if_pos hfiles]
    obtain ⟨a, ha⟩ := Option.ne_none_iff_exists'.mp (mt hin.mp hfiles)
    rw [ha]
    exact dupTo_self (hio.inFd a ha)

/-- What the loop over the stages keeps. -/
structure StdinInv (f : Fds sh) (env : Env) (pipefds : List (ℕ × ℕ)) (done : List CommandStage)
    (setups : List Setup) (g : Fds sh) : Prop where
  links : Links pipefds g
  prepared : Prepared env done setups g
  inFd : List.Forall₂ (fun st s => s.io.inFd = none ↔ st.inputFiles = []) done setups
  stdin : g 0 = f 0

/-- What is open stays open, descriptor `0` with it. -/
theorem Links.stdin {h : Fds sh} (hg : Links pipefds g) (hkeep : Within g h) : h 0 = g 0 := by
  obtain ⟨n, hn⟩ := hg.std 0 (by omega)
  rw [hkeep hn, hn]

theorem stdinInv : StagesInv (StdinAt f stages) env pipefds (StdinInv f env pipefds) where
  links h := h.links
  helpers _ _ := helpersOk_stdin
  snoc st h hin hopen := by
    refine ⟨hopen.links h.links, h.prepared.snoc st hopen,
      List.rel_append h.inFd (.cons hin .nil), ?_⟩
    rw [h.links.stdin hopen.keeps, h.stdin]

theorem stdinAt_launchBackground {setups : List Setup}
    (hlen : pipefds.length + 1 = stages.length) (h : StdinInv f env pipefds stages setups g) :
    wp (fdLocal lim faults) (StdinAt f stages) Role.shell
      (launchBackground stages pipefds setups) (fun _ _ _ => True) g := by
  refine wp_launchBackground h.links (fun sync g₁ Q' i st s path pids hg₁ hrow _ => ?_)
    (fun _ _ _ => trivial)
  obtain ⟨hst, hs⟩ := List.getElem?_zip_eq_some.mp hrow
  have hi : i < stages.length := (List.getElem?_eq_some_iff.mp hst).1
  have hin : s.io.inFd = none ↔ st.inputFiles = [] :=
    (List.forall₂_iff_zip.mp h.inFd).2 (List.mem_of_getElem? hrow)
  have hstd : g₁ 0 = f 0 := by
    rw [h.links.stdin hg₁.keeps, h.stdin]
  unfold stageChildBg
  simp only [wp_bind, wp_note, wp_setpgid, wp_wireStage]
  rw [← wp_bind]
  refine stdinAt_passGate hst ?_ (hg₁.two_lt h.links)
  have hio := (h.prepared.open_ i s hs).mono hg₁.keeps
  exact wired_stdin (hg₁.links h.links) hio hin hstd (by omega)

/-! ### Every run -/

theorem stdinAt_executeBackground (hf : ShellTable f) :
    wp (fdLocal lim faults) (StdinAt f stages) Role.shell (executeBackground env stages)
      (fun _ _ _ => True) f := by
  match stages with
  | [] => exact trivial
  | [st] => exact stdinAt_backgroundCommand hf
  | st :: st' :: rest =>
    refine wp_preparePipeline hf (by simp) (fun _ _ => trivial) (fun pipefds => stdinInv)
      (fun pipefds g hg hkeep => ?_)
      (fun pipefds setups g hlen hall => stdinAt_launchBackground hlen hall)
      (fun _ _ _ => trivial)
    exact ⟨hg, ⟨.nil, fun i s hs => nomatch hs⟩, .nil, hf.links.stdin hkeep⟩

/-- The process is about to be replaced. -/
def AtExec (p : Process sh ℤ) : Prop := ∃ n k, p.code = .running (.call (.exec n) k)

/-- `AtExec`, computed. -/
def atExec (p : Process sh ℤ) : Bool :=
  match p.code with
  | .running (.call (.exec _) _) => true
  | _ => false

theorem atExec_iff {p : Process sh ℤ} : AtExec p ↔ atExec p = true := by
  unfold AtExec atExec
  constructor
  · rintro ⟨n, k, hcode⟩
    rw [hcode]
  · intro h
    split at h
    · rename_i n k hcode
      exact ⟨n, k, hcode⟩
    · cases h

instance (p : Process sh ℤ) : Decidable (AtExec p) := decidable_of_iff _ atExec_iff.symm

/-- Of the processes of a launch, only the writer of stage `i` writes to the pipe of
its input. -/
def OnlyWriter (i : ℕ) (w : World sh ℤ) : Prop :=
  ∀ q ∈ w.procs, ∀ fd n k, q.code = .running (.call (.feed fd n) k) →
    q.fds fd = some (.write (.input i)) → q.role = .writer i

section Runs

variable {as : List (Act sh)} {w : World sh ℤ}

theorem stdinAt_run (hf : ShellTable f)
    (hrun : Reaches lim True True (executeBackground env stages) f as w) :
    ∀ p ∈ w.procs,
      p.Meets lim True (StdinAt f stages) (fun _ _ _ => True) (fun _ _ _ => True) := by
  refine meets_run (fun r fd n g hA => ?_) (fun _ _ _ _ => trivial) (fun _ _ _ _ _ _ => trivial)
    (stdinAt_executeBackground hf) hrun
  cases r <;> exact hA

theorem onlyWriter_run (hf : ShellTable f)
    (hrun : Reaches lim True True (executeBackground env stages) f as w) (i : ℕ) :
    OnlyWriter i w := by
  intro q hq fd n k hcode hfd
  have hA := ((stdinAt_run hf hrun q hq).of_running hcode).1 rfl
  cases hrole : q.role with
  | writer j =>
    rw [hrole] at hA
    have hA : q.fds fd = some (.write (.input j)) := hA
    rw [hfd] at hA
    cases hA
    rfl
  | shell | stage j | reader j =>
    rw [hrole] at hA
    exact hA.elim

/-- **A stage of a background launch reads the terminal exactly if it is the first
one and has no input file.**  In every run, whatever fails, a stage about to be
executed has as its standard input the pipe into which only the helper that copies
its input files writes, if it has input files; the pipe from the stage before it,
if there is one; and otherwise the descriptor of the shell. -/
theorem background_stdin {p : Process sh ℤ} (hf : ShellTable f)
    (hrun : Reaches lim True True (executeBackground env stages) f as w) (hp : p ∈ w.procs)
    (hrole : p.role = .stage i) (hexec : AtExec p) :
    ∃ st, stages[i]? = some st ∧
      (st.inputFiles ≠ [] → p.fds 0 = some (.read (.input i)) ∧ OnlyWriter i w) ∧
      (st.inputFiles = [] → 0 < i → p.fds 0 = some (.read (.link (i - 1)))) ∧
      (p.fds 0 ≠ f 0 ↔ st.inputFiles ≠ [] ∨ 0 < i) := by
  obtain ⟨n, k, hcode⟩ := hexec
  have hA := ((stdinAt_run hf hrun p hp).of_running hcode).1 rfl
  rw [hrole] at hA
  obtain ⟨st, hst, hstdin⟩ := hA
  refine ⟨st, hst, fun hfiles => ⟨?_, onlyWriter_run hf hrun i⟩, fun hfiles hpos => ?_, ?_⟩
  · rw [hstdin, stdinEnd, if_pos hfiles]
  · rw [hstdin, stdinEnd, if_neg (not_not_intro hfiles), if_pos hpos]
  · rw [hstdin]
    exact stdinEnd_ne_iff hf

end Runs

/-- After `catFRun` the writer ends, and with it the last write end of the gate; the
child passes the gate. -/
def catFExecRun : List (Act sh) :=
  catFRun ++ ([.ok, .ok, .ok, .ok].map (Act.call 1)) ++ ([.ok, .ok].map (Act.call 2))

/-- `cat < f &` reads its file. -/
theorem background_stdin_catF : ∃ w, Reaches usualLimits True True
    (executeBackground plainEnv [catF]) terminal catFExecRun w ∧
      ∃ p ∈ w.procs, p.role = .stage 0 ∧ AtExec p ∧ p.fds 0 = some (.read (.input 0)) ∧
        OnlyWriter 0 w ∧ p.fds 0 ≠ terminal 0 := by
  obtain ⟨w, hrun, p, hp, hrole, hexec⟩ : ∃ w, Reaches usualLimits True True
      (executeBackground plainEnv [catF]) terminal catFExecRun w ∧
      ∃ p ∈ w.procs, p.role = .stage 0 ∧ AtExec p :=
    exists_reaches (fun a _ => allowed_true a) (by decide +kernel)
  obtain ⟨st, hst, hfile, -, hne⟩ := background_stdin shellTable_terminal hrun hp hrole hexec
  obtain rfl : catF = st := Option.some.inj hst
  obtain ⟨hread, honly⟩ := hfile (by decide)
  exact ⟨w, hrun, p, hp, hrole, hexec, hread, honly, hne.mpr (Or.inl (by decide))⟩

/-- `cat &` -/
def plainCat : CommandStage := ⟨["cat".toList], [], []⟩

/-- The shell runs to its end, then the child up to `execv`. -/
def plainCatRun : List (Act sh) :=
  let v := Outcome.value 0
  ([.ok, v, .ok, v, v, .ok, v, v, v, v, .ok].map (Act.call 0)) ++
    ([v, v, .ok, .ok, .ok].map (Act.call 1))

/-- `cat &` is executed with the terminal as its standard input. -/
theorem plain_cat_reads_terminal : ∃ w, Reaches usualLimits False False
    (executeBackground plainEnv [plainCat]) terminal plainCatRun w ∧
      ∃ p ∈ w.procs, p.role = .stage 0 ∧ AtExec p ∧ p.fds 0 = terminal 0 :=
  exists_reaches (by decide) (by decide +kernel)

end Redirect
end RuShell
