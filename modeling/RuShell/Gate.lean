import RuShell.Helpers

/-!
# The launch gate

A background job is held at the gate until the shell has registered it: the stage
processes read from `sync_pipe`, and the end of file comes when the last copy of
its write end is closed.

For a single command the child closes its own copy, but the helpers of its
redirections inherit one as well.  A writer gives it up when it has fed all input,
which it can do without the child's help only if the input fits into the pipe; a
reader gives it up only when the child exits.  In a pipeline the stage processes
themselves keep their copies, so nobody ever passes the gate.

## Main definitions

* `GateAt` — the table of a single command that is held at the gate.
* `Opens` — the gate can open without the child's help.

## Main results

* `gate_opens` — **a single command without output redirection whose input fits
  into the pipe is never stuck.**
* `pipeline_stuck` — `a | b &` is.
-/

namespace RuShell
namespace Redirect

open Lib.Posix
open RuShell.Segment

variable {lim : Limits} {faults : Prop} {f g : Fds sh} {env : Env} {st : CommandStage}
  {q : Process sh ℤ} {as : List (Act sh)} {w' : World sh ℤ} {sync : Option (ℕ × ℕ)}

/-! ### Tables -/

/-- What is known at the gate: only a command waits there, and it has closed its copy of
the write end. -/
def GateAt : Role → Call sh → Fds sh → Prop
  | .stage _, .readByte _, f => NoEnd (.write .gate) f
  | _, .readByte _, _ => False
  | _, _, _ => True

/-- The table of the shell before the command is set up: the write end of the gate
is where `sync` says. -/
def GateTable (sync : Option (ℕ × ℕ)) (f : Fds sh) : Prop :=
  ∀ fd, f fd = some (.write .gate) → sync.map Prod.snd = some fd

theorem gateAt_commandChildBg {α : Type} {path : Str} {io : StageIo}
    {Q : Role → α → Fds sh → Prop}
    (hgate : NoEnd (.write .gate) (closed (sync.map Prod.snd).toList f)) :
    wp (fdLocal lim faults) GateAt (Role.stage 0) (commandChildBg sync path st io) Q f := by
  unfold commandChildBg
  simp only [wp_bind, wp_note, wp_setpgid, wp_closeOpt, wp_dupOpt (show 0 < 3 by omega),
    wp_dupOpt (show 1 < 3 by omega)]
  cases sync with
  | none => exact wp_execStage fun _ => trivial
  | some sync =>
    unfold passGate
    simp only [wp_bind, wp_readByte, wp_close]
    exact ⟨(((hgate.dupTo _ _).closed _).dupTo _ _).closed _, wp_execStage fun _ => trivial⟩

theorem gateAt_executeWithRedirectionBg
    {Q : Role → Option ℕ → Fds sh → Prop} (hf : GateTable sync f) (hQ : ∀ x g, Q .shell x g) :
    wp (fdLocal lim faults) GateAt Role.shell (executeWithRedirectionBg env st sync) Q f := by
  refine wp_executeWithRedirectionBg ⟨fun _ _ _ _ _ _ => trivial, fun _ _ _ _ _ _ _ => trivial⟩
    (fun _ _ => trivial) (fun path io g _ _ hopen => gateAt_commandChildBg fun fd he => ?_) hQ
  -- the new descriptors are no ends of the gate
  obtain ⟨f₁, hin, hout⟩ := hopen
  obtain ⟨hfd, he⟩ := of_closed he
  rcases hout.cases he with ⟨-, heq⟩ | he
  · cases heq
  rcases hin.cases he with ⟨-, heq⟩ | he
  · cases heq
  · exact hfd (Option.mem_toList.mpr (hf fd he))

theorem Gated.gateTable (h : Gated f sync g) (hf : ShellTable f) : GateTable sync g := by
  have hfiles : NoEnd (.write .gate) f := by
    intro fd he
    obtain ⟨n, hn⟩ := hf.files fd _ he
    cases hn
  intro fd he
  cases sync with
  | none =>
    obtain rfl : g = f := h
    exact absurd he (hfiles fd)
  | some p =>
    obtain ⟨a, b⟩ := p
    obtain ⟨-, -, -, rfl⟩ := h
    rcases piped_cases he with ⟨rfl, -⟩ | ⟨-, -, hread⟩ | ⟨-, -, he⟩
    · rfl
    · cases hread
    · exact absurd he (hfiles fd)

/-! ### Every run -/

/-- What holds in every state of a single command in the background. -/
structure GateInv (lim : Limits) (env : Env) (st : CommandStage) (w : World sh ℤ) : Prop where
  ok : ∀ p ∈ w.procs, p.Ok lim True GateAt fun _ _ _ => True
  kept : ∃ v, Kept lim True (helperPact env [st]) (fun _ _ => True) w v
  shell : ∃ p, w.procs[0]? = some p ∧ p.role = .shell

variable {w : World sh ℤ}

theorem gateInv_of_reaches (hf : ShellTable f)
    (hrun : Reaches lim True True (executeBackground env [st]) f as w) : GateInv lim env st w := by
  have hwp : wp (fdLocal lim True) GateAt Role.shell (backgroundCommand env st)
      (fun _ _ _ => True) f :=
    wp_backgroundCommand
      (fun _ _ _ hg hQ => gateAt_executeWithRedirectionBg (hg.gateTable hf) hQ)
      fun _ _ => trivial
  refine ⟨meets_run (fun r _ _ _ _ => ?_) (fun _ _ _ hA => hA) (fun _ r _ _ _ _ => ?_) hwp hrun,
    kept_run (helperPact_sound env [st]) hrun ⟨_, Kept.start (mwp_backgroundCommand hf)⟩,
    run_role hrun (j := 0) rfl⟩
  · cases r <;> trivial
  · cases r <;> trivial

/-- The processes: the shell, the child and the writer. -/
theorem GateInv.role_cases (hw : GateInv lim env st w) (hout : st.outputFiles = [])
    {p : Process sh ℤ} (hp : p ∈ w.procs) :
    p.role = .shell ∨ p.role = .stage 0 ∨ p.role = .writer 0 := by
  obtain ⟨v, hv⟩ := hw.kept
  obtain ⟨p₀, hp₀, hrole₀⟩ := hw.shell
  have hmem : p.role ∈ w.procs.map (·.role) := List.mem_map_of_mem hp
  rw [hv.map_role hp₀, hrole₀, List.mem_cons] at hmem
  refine hmem.imp_right fun hkid => ?_
  have hrole : HasRole [st] p.role := hv.named _ hkid
  cases h : p.role with
  | shell =>
    rw [h] at hrole
    exact hrole.elim
  | stage i =>
    rw [h] at hrole
    exact .inl (congrArg _ (Nat.lt_one_iff.mp hrole))
  | writer i =>
    rw [h] at hrole
    exact .inr (congrArg _ (Nat.lt_one_iff.mp hrole))
  | reader i =>
    rw [h] at hrole
    obtain ⟨st', hst, hfiles⟩ := hrole
    obtain rfl := List.mem_singleton.mp (List.mem_of_getElem? hst)
    exact absurd hout hfiles

theorem GateInv.unique (hw : GateInv lim env st w) {i j : ℕ} {p : Process sh ℤ}
    (hp : w.procs[i]? = some p) (hq : w.procs[j]? = some q) (hrole : p.role = q.role) : i = j := by
  obtain ⟨v, hv⟩ := hw.kept
  obtain ⟨p₀, hp₀, hrole₀⟩ := hw.shell
  have hnodup := hv.nodup_roles hp₀ (by rw [hrole₀]; exact id)
  refine (List.getElem?_inj ?_ hnodup).mp ?_
  · rw [List.length_map]
    exact (List.getElem?_eq_some_iff.mp hp).1
  · rw [List.getElem?_map, List.getElem?_map, hp, hq]
    exact congrArg some hrole

/-! ### Passing the gate -/

section Passing

variable {w : World sh ℤ} {c : ℕ}

/-- The process is about to read from the gate. -/
def AtGate (w : World sh ℤ) (c : ℕ) : Prop :=
  ∃ p fd k, w.procs[c]? = some p ∧ p.code = .running (.call (.readByte fd) k) ∧
    p.fds fd = some (.read .gate)

/-- `AtGate`, computed. -/
def gateReader (w : World sh ℤ) (c : ℕ) : Bool :=
  match w.procs[c]? with
  | some ⟨_, fds, .running (.call (.readByte fd) _)⟩ => fds fd = some (.read .gate)
  | _ => false

theorem atGate_iff : AtGate w c ↔ gateReader w c = true := by
  constructor
  · rintro ⟨⟨role, fds, code⟩, fd, k, hp, hcode, hfd⟩
    dsimp only at hcode hfd
    subst hcode
    simp only [gateReader, hp, hfd, decide_true]
  · intro h
    unfold gateReader at h
    split at h
    · rename_i role fds fd k hp
      exact ⟨_, fd, k, hp, rfl, of_decide_eq_true h⟩
    · cases h

instance : Decidable (AtGate w c) := decidable_of_iff _ atGate_iff.symm

/-- Without a step of `c` the others can get to a state in which its `read` returns. -/
def Opens (lim : Limits) (w : World sh ℤ) (c : ℕ) : Prop :=
  ∃ as w', Lib.Run (Steps (I := sh) lim True True) w as w' ∧ (∀ a ∈ as, a.pid ≠ c) ∧
    (step lim w' (.call c .ok)).isSome

/-- The shell has closed its copy of the write end. -/
def ShellClosed (lim : Limits) (w : World sh ℤ) : Prop :=
  ∀ p ∈ w.procs[0]?, ∀ fd < lim.openMax, p.fds fd ≠ some (.write .gate)

instance : Decidable (ShellClosed lim w) := by
  unfold ShellClosed
  infer_instance

/-- The child itself holds no write end. -/
theorem GateInv.child (hw : GateInv lim env st w) (hout : st.outputFiles = [])
    (hc : AtGate w c) : ∃ p, w.procs[c]? = some p ∧ p.role = .stage 0 ∧
      NoEnd (.write .gate) p.fds := by
  obtain ⟨p, fd, k, hp, hcode, -⟩ := hc
  have hmem := List.mem_of_getElem? hp
  have hA := ((hw.ok p hmem).of_running hcode).1 rfl
  rcases hw.role_cases hout hmem with hrole | hrole | hrole
  · rw [hrole] at hA
    exact hA.elim
  · rw [hrole] at hA
    exact ⟨p, hp, hrole, hA⟩
  · rw [hrole] at hA
    exact hA.elim

/-- Whoever else holds the write end is the writer, and it is alive. -/
theorem GateInv.holder (hw : GateInv lim env st w) (hout : st.outputFiles = [])
    (hc : AtGate w c) (hshell : ShellClosed lim w) {h : ℕ} {fd : ℕ}
    (hq : w.procs[h]? = some q) (hlt : fd < lim.openMax) (hfd : q.fds fd = some (.write .gate)) :
    h ≠ c ∧ q.role = .writer 0 ∧ q.code ≠ .dead := by
  obtain ⟨p, hp, hprole, hpno⟩ := hw.child hout hc
  have hmem := List.mem_of_getElem? hq
  have hne : h ≠ c := by
    rintro rfl
    rw [hp] at hq
    cases hq
    exact hpno fd hfd
  refine ⟨hne, ?_, fun hdead => ?_⟩
  · rcases hw.role_cases hout hmem with hrole | hrole | hrole
    · obtain ⟨p₀, hp₀, hrole₀⟩ := hw.shell
      obtain rfl := hw.unique hq hp₀ (hrole.trans hrole₀.symm)
      exact absurd hfd (hshell q hq fd hlt)
    · exact absurd (hw.unique hq hp (hrole.trans hprole.symm)) hne
    · exact hrole
  · have hok := hw.ok q hmem
    unfold Process.Ok Process.Meets at hok
    rw [hdead] at hok
    rw [hok] at hfd
    cases hfd

/-- A `read` returns if the write end is not held. -/
theorem isSome_step_of_not_held (hc : AtGate w c) (hheld : w.held lim (.write .gate) ≠ true) :
    (step lim w (.call c .ok)).isSome := by
  obtain ⟨p, fd, k, hp, hcode, hfd⟩ := hc
  simp only [step, hp, hcode, World.callStep, hfd, if_neg hheld]
  split <;> rfl

/-- The child waits as long as it makes no step. -/
theorem AtGate.run {exts : Prop}
    (hc : AtGate w c) (hrun : Lib.Run (Steps (I := sh) lim faults exts) w as w')
    (hpid : ∀ a ∈ as, a.pid ≠ c) : AtGate w' c := by
  obtain ⟨p, fd, k, hp, hcode⟩ := hc
  exact ⟨p, fd, k, run_frame hrun hpid hp, hcode⟩

/-- What the writer does is not done by the shell. -/
theorem ShellClosed.run_writer {exts : Prop}
    {h : ℕ} (hshell : ShellClosed lim w) (hw : GateInv lim env st w)
    (hq : w.procs[h]? = some q) (hrole : q.role = .writer 0)
    (hrun : Lib.Run (Steps (I := sh) lim faults exts) w as w') (hpid : ∀ a ∈ as, a.pid = h) :
    ShellClosed lim w' := by
  obtain ⟨p₀, hp₀, hrole₀⟩ := hw.shell
  have hne₀ : h ≠ 0 := by
    rintro rfl
    rw [hp₀] at hq
    cases hq
    rw [hrole₀] at hrole
    cases hrole
  intro p hp
  rw [Option.mem_def, run_frame hrun (fun a ha => hpid a ha ▸ hne₀) hp₀] at hp
  cases hp
  exact hshell p₀ hp₀

/-- **A single command without output redirection whose input fits into the pipe
passes the gate**: whatever the order of steps, once the shell has closed its copy
of the write end nobody is stuck, and the gate can open without the child's help. -/
theorem gate_opens (hf : ShellTable f) (hout : st.outputFiles = [])
    (hin : inputSize env st.inputFiles ≤ lim.cap)
    (hrun : Reaches lim True True (executeBackground env [st]) f as w)
    (hshell : ShellClosed lim w) : ¬Stuck lim w PipeTag.gate c ∧ (AtGate w c → Opens lim w c) := by
  have hw : GateInv lim env st w := gateInv_of_reaches hf hrun
  obtain ⟨v, hv⟩ := hw.kept
  -- the writer gives its copy up on its own
  have hdie : ∀ {h q fd}, AtGate w c → w.procs[h]? = some q → fd < lim.openMax →
      q.fds fd = some (.write .gate) → h ≠ c ∧ q.role = .writer 0 ∧ CanDie lim False w h := by
    intro h q fd hc hq hlt hfd
    obtain ⟨hne, hrole, halive⟩ := hw.holder hout hc hshell hq hlt hfd
    refine ⟨hne, hrole, ?_⟩
    cases h with
    | zero =>
      obtain ⟨p₀, hp₀, hrole₀⟩ := hw.shell
      rw [hp₀] at hq
      cases hq
      rw [hrole₀] at hrole
      cases hrole
    | succ j => exact canDie_small hv hq hrole halive hin
  refine ⟨fun hstuck => ?_, fun hc => ?_⟩
  · obtain ⟨h, q, fd, hq, hlt, hfd⟩ := exists_holder hstuck.held
    obtain ⟨hne, -, as', w', -, hrun', hpid, hnil, -⟩ := hdie hstuck.reading hq hlt hfd
    obtain ⟨a, ha⟩ := List.exists_mem_of_ne_nil as' hnil
    refine hstuck.waits h q fd hq hfd hne as' w' (run_true hrun') (fun b hb => ?_) a ha (hpid a ha)
    rw [hpid b hb]
    exact hne
  · by_cases hheld : w.held lim (.write .gate) = true
    · obtain ⟨h, q, fd, hq, hlt, hfd⟩ := exists_holder hheld
      obtain ⟨hne, hrole, as', w', q', hrun', hpid, -, hq', hdead⟩ := hdie hc hq hlt hfd
      have hpid' : ∀ a ∈ as', a.pid ≠ c := fun a ha => hpid a ha ▸ hne
      refine ⟨as', w', run_true hrun', hpid', ?_⟩
      -- the child and the shell have not moved, and the writer is dead
      have hc' : AtGate w' c := hc.run hrun' hpid'
      have hshell' : ShellClosed lim w' := hshell.run_writer hw hq hrole hrun' hpid
      refine isSome_step_of_not_held hc' fun hheld' => ?_
      obtain ⟨h₂, q₂, fd₂, hq₂, hlt₂, hfd₂⟩ := exists_holder hheld'
      have hw' := gateInv_of_reaches hf (hrun.append (run_true hrun'))
      obtain ⟨-, hrole₂, halive⟩ := hw'.holder hout hc' hshell' hq₂ hlt₂ hfd₂
      obtain ⟨q₃, hq₃, hrole₃⟩ := run_role hrun' hq
      obtain rfl := hw'.unique hq₂ hq₃ (hrole₂.trans (hrole₃.trans hrole).symm)
      rw [hq₂] at hq'
      cases hq'
      exact halive hdead
    · exact ⟨[], w, .nil w, by simp, isSome_step_of_not_held hc hheld⟩

end Passing

/-! ### The runs of `cat < f &` and of `a | b &` -/

/-- The capacity of a pipe and the size of a descriptor table on the usual systems. -/
def usualLimits : Limits where
  cap := 65536
  extra := 1021

/-- `cat < f &` -/
def catF : CommandStage := ⟨["cat".toList], [['f']], []⟩

/-- The shell runs to its end, the writer up to its first `write`, the child up to
the gate. -/
def catFRun : List (Act sh) :=
  let v := Outcome.value 0
  ([.ok, .ok, .ok, .ok, .ok, .ok, v, .ok, v, v, v, .ok, v, .ok, v, v, v, v, .ok].map
    (Act.call 0)) ++ [.call 1 .ok] ++ ([v, v, .ok, .ok, .ok].map (Act.call 2))

theorem gate_opens_catF : ∃ w, Reaches usualLimits True True
    (executeBackground { plainEnv with size := fun _ => 100 } [catF]) terminal catFRun w ∧
      ShellClosed usualLimits w ∧ AtGate w 2 ∧ ¬Stuck usualLimits w PipeTag.gate 2 ∧
      Opens usualLimits w 2 := by
  obtain ⟨w, hrun, hshell, hc⟩ : ∃ w, Reaches usualLimits True True
      (executeBackground { plainEnv with size := fun _ => 100 } [catF]) terminal catFRun w ∧
      ShellClosed usualLimits w ∧ AtGate w 2 :=
    exists_reaches (fun a _ => allowed_true a) (by decide +kernel)
  obtain ⟨hstuck, hopens⟩ := gate_opens (c := 2) shellTable_terminal rfl (by decide) hrun hshell
  exact ⟨w, hrun, hshell, hc, hstuck, hopens hc⟩

/-- The shell runs to its end, the stages up to the gate. -/
def aPipeBGateRun : List (Act sh) :=
  let v := Outcome.value 0
  ([.ok, v, .ok, .ok, v, .ok, v, .ok, .ok, .ok, v, v, v, v, v, v, .ok, v].map (Act.call 0)) ++
    ([v, v, .ok, .ok, .ok].map (Act.call 1)) ++ ([v, v, .ok, .ok, .ok].map (Act.call 2))

/-- The shell has returned. -/
def shellDone (w : World sh ℤ) : Bool :=
  match w.procs[(0 : ℕ)]? with
  | some ⟨_, _, .running (.pure _)⟩ => true
  | _ => false

theorem exists_of_shellDone (h : shellDone w = true) :
    ∃ p x, w.procs[0]? = some p ∧ p.code = .running (.pure x) := by
  unfold shellDone at h
  split at h
  · rename_i role fds x hp
    exact ⟨_, x, hp, rfl⟩
  · cases h

/-- Both stages of `a | b &` keep the write end of the gate: each waits for the
other, and for itself. -/
theorem pipeline_stuck : ∃ w, Reaches usualLimits False False (executeBackground plainEnv aPipeB)
    terminal aPipeBGateRun w ∧ shellDone w = true ∧ ShellClosed usualLimits w ∧
      Stuck usualLimits w PipeTag.gate 1 := by
  obtain ⟨w, hrun, hdone, hshell, ⟨p₁, fd₁, k₁, hp₁, hcode₁, hfd₁⟩,
      ⟨p₂, fd₂, k₂, hp₂, hcode₂, hfd₂⟩, hlen, hempty, hheld⟩ : ∃ w,
      Reaches usualLimits False False (executeBackground plainEnv aPipeB) terminal
        aPipeBGateRun w ∧ shellDone w = true ∧ ShellClosed usualLimits w ∧ AtGate w 1 ∧
      AtGate w 2 ∧ w.procs.length = 3 ∧ w.fill PipeTag.gate = 0 ∧
      w.held usualLimits (.write .gate) = true :=
    exists_reaches (by decide) (by decide +kernel)
  refine ⟨w, hrun, hdone, hshell,
    stuck_of_no_step hp₁ hcode₁ hfd₁ hempty hheld fun a ha => ?_⟩
  by_cases h0 : a.pid = 0
  · obtain ⟨p₀, x, hp₀, hcode₀⟩ := exists_of_shellDone hdone
    exact step_returned hp₀ hcode₀ a h0
  by_cases h2 : a.pid = 2
  · exact step_blocked hp₂ hcode₂ hfd₂ hempty hheld a h2
  · exact step_absent (List.getElem?_eq_none (by omega))

end Redirect
end RuShell
