import RuShell.Helpers

/-!
# Who holds the ends of the pipes between stages

Every `fork` copies all open pipe ends, so each of the up to `3n` processes of a
pipeline has to close exactly the right ones: one write end too many, and the
reader of that pipe never sees the end of its input.

The shell holds both ends of every pipe until the last stage is forked (`Links`);
helpers close all of them; a stage keeps one read end as its standard input and
one write end as its standard output (`StageEnds`).

## Main definitions

* `Links`, `NoLinks`, `StageEnds` — the tables of the shell, of the helpers and
  of the stages.
* `StagesInv` — an invariant of the loop over the stages.
* `Settled` — a process that has made its own `dup2` and `close` calls.

## Main results

* `wp_preparePipeline` — the first half of a pipeline, for any such invariant.
* `wp_launchJob` — every process has its table.
* `pipe_ends_owned` — **each end has exactly the holder it should have**, in every
  settled state of every run.
-/

namespace RuShell
namespace Redirect

open Lib.Posix
open RuShell.Segment

variable {lim : Limits} {faults : Prop} {f g h : Fds sh} {pipefds : List (ℕ × ℕ)} {fd : ℕ}
  {e : End sh} {a b : ℕ}

/-! ### Tables -/

/-- An end of a pipe between stages. -/
def IsLink : End sh → Prop
  | .read (.link _) => True
  | .write (.link _) => True
  | _ => False

/-- No end of a pipe between stages is open. -/
def NoLinks (f : Fds sh) : Prop := ∀ fd e, f fd = some e → ¬IsLink e

/-- The table of the shell: standard input, output and error are open, and both
ends of every pipe in `pipefds`, and no other end of a pipe between stages. -/
structure Links (pipefds : List (ℕ × ℕ)) (f : Fds sh) : Prop where
  std : ∀ fd < 3, ∃ n, f fd = some (.file n)
  read : ∀ k p, pipefds[k]? = some p → f p.1 = some (.read (.link k))
  write : ∀ k p, pipefds[k]? = some p → f p.2 = some (.write (.link k))
  only : ∀ fd e, f fd = some e → IsLink e → fd ∈ pipeEnds pipefds

theorem ShellTable.links (hf : ShellTable f) : Links [] f := by
  refine ⟨hf.std, by simp, by simp, fun fd e he hlink => ?_⟩
  obtain ⟨n, rfl⟩ := hf.files fd e he
  exact hlink.elim

theorem mem_pipeEnds : fd ∈ pipeEnds pipefds ↔ ∃ p ∈ pipefds, fd = p.1 ∨ fd = p.2 := by
  simp only [pipeEnds, List.mem_flatMap, List.mem_cons, List.not_mem_nil, or_false]

namespace Links

theorem isLink_of_mem (h : Links pipefds f) (hfd : fd ∈ pipeEnds pipefds) :
    ∃ e, f fd = some e ∧ IsLink e := by
  obtain ⟨p, hp, hfd⟩ := mem_pipeEnds.mp hfd
  obtain ⟨k, hk⟩ := List.mem_iff_getElem?.mp hp
  rcases hfd with rfl | rfl
  · exact ⟨_, h.read k p hk, trivial⟩
  · exact ⟨_, h.write k p hk, trivial⟩

theorem pipesOpen (h : Links pipefds f) : PipesOpen pipefds f := by
  intro fd hfd hnone
  obtain ⟨e, he, -⟩ := h.isLink_of_mem hfd
  rw [hnone] at he
  cases he

theorem notMem (h : Links pipefds f) (he : f fd = some e)
    (hlink : ¬IsLink e) : fd ∉ pipeEnds pipefds := by
  intro hfd
  obtain ⟨e', he', hlink'⟩ := h.isLink_of_mem hfd
  rw [he] at he'
  cases he'
  exact hlink hlink'

/-- After `close_all_pipes` none is left. -/
theorem noLinks_closed (h : Links pipefds f) : NoLinks (closed (pipeEnds pipefds) f) := by
  intro fd e he hlink
  obtain ⟨hfd, he⟩ := of_closed he
  exact hfd (h.only fd e he hlink)

/-- One more descriptor of another kind. -/
theorem plug {fd : Option ℕ} (h : Links pipefds f)
    (hg : Plugged e f fd g) (he : ¬IsLink e) : Links pipefds g := by
  refine ⟨fun b hb => ?_, fun k p hp => hg.keeps (h.read k p hp),
    fun k p hp => hg.keeps (h.write k p hp), fun b e' hb hlink => ?_⟩
  · obtain ⟨n, hn⟩ := h.std b hb
    exact ⟨n, hg.keeps hn⟩
  · rcases hg.cases hb with ⟨-, rfl⟩ | hb
    · exact absurd hlink he
    · exact h.only b e' hb hlink

/-- One more pipe. -/
theorem snoc (h : Links pipefds f) (ha : f a = none) (hb : f b = none)
    (hab : a ≠ b) : Links (pipefds ++ [(a, b)]) (piped (.link pipefds.length) a b f) := by
  refine ⟨fun fd hfd => ?_, fun k p hk => ?_, fun k p hk => ?_, fun fd e he hlink => ?_⟩
  · obtain ⟨n, hn⟩ := h.std fd hfd
    exact ⟨n, piped_of_some ha hb hn⟩
  · rcases Lib.getElem?_concat_cases hk with hk | ⟨rfl, rfl⟩
    · exact piped_of_some ha hb (h.read k p hk)
    · exact piped_read hab
  · rcases Lib.getElem?_concat_cases hk with hk | ⟨rfl, rfl⟩
    · exact piped_of_some ha hb (h.write k p hk)
    · exact piped_write
  · rcases piped_cases he with ⟨hfb, -⟩ | ⟨-, hfa, -⟩ | ⟨-, -, he⟩
    · exact mem_pipeEnds.mpr ⟨(a, b), by simp, Or.inr hfb⟩
    · exact mem_pipeEnds.mpr ⟨(a, b), by simp, Or.inl hfa⟩
    · obtain ⟨p, hp, hfd⟩ := mem_pipeEnds.mp (h.only fd e he hlink)
      exact mem_pipeEnds.mpr ⟨p, List.mem_append_left _ hp, hfd⟩

/-- Both ends of the gate. -/
theorem gate (h : Links pipefds f) (ha : f a = none) (hb : f b = none)
    (hab : a ≠ b) : Links pipefds (piped .gate a b f) := by
  have hread : Plugged (.read .gate) f (some a) (Function.update f a (some (.read .gate))) :=
    ⟨ha, rfl⟩
  have hwrite : Plugged (.write .gate) (Function.update f a (some (.read .gate))) (some b)
      (piped .gate a b f) := ⟨by rwa [Function.update_of_ne hab.symm], rfl⟩
  exact (h.plug hread id).plug hwrite id

end Links

/-- A helper closes every pipe between stages. -/
theorem Inherits.noLinks (hinh : Inherits f pipefds e h)
    (hf : Links pipefds f) (he : ¬IsLink e) : NoLinks h := by
  intro fd e' he' hlink
  rcases hinh fd e' he' with rfl | ⟨n, rfl⟩ | ⟨hfd, he'⟩
  · exact he hlink
  · exact hlink
  · exact hfd (hf.only fd e' he' hlink)

/-! ### Stages -/

/-- The ends stage `i` of `n` has once it is wired. -/
def StageEnds (n i : ℕ) (st : CommandStage) (h : Fds sh) : Prop :=
  ∀ fd k, (h fd = some (.write (.link k)) ↔ fd = 1 ∧ k = i ∧ k + 1 < n ∧ st.outputFiles = []) ∧
    (h fd = some (.read (.link k)) ↔ fd = 0 ∧ k + 1 = i ∧ st.inputFiles = [])

/-- The descriptors of the redirections of stage `i`. -/
structure IoOpen (i : ℕ) (io : StageIo) (f : Fds sh) : Prop where
  inFd : ∀ a, io.inFd = some a → f a = some (.read (.input i))
  outFd : ∀ b, io.outFd = some b → f b = some (.write (.output i))

theorem IoOpen.mono {i : ℕ} {io : StageIo} (h : IoOpen i io f) (hfg : Within f g) :
    IoOpen i io g :=
  ⟨fun a ha => hfg (h.inFd a ha), fun b hb => hfg (h.outFd b hb)⟩

/-- They are no files. -/
theorem IoOpen.notMem {i : ℕ} {io : StageIo} (h : IoOpen i io f) {n : FileName}
    (hn : f fd = some (.file n)) : fd ∉ io.inFd.toList ∧ fd ∉ io.outFd.toList := by
  refine ⟨fun hmem => ?_, fun hmem => ?_⟩
  · have hread := h.inFd fd (Option.mem_toList.mp hmem)
    rw [hn] at hread
    cases hread
  · have hwrite := h.outFd fd (Option.mem_toList.mp hmem)
    rw [hn] at hwrite
    cases hwrite

/-- The table after the `dup2` and `close` calls of a stage. -/
def wired (i : ℕ) (st : CommandStage) (io : StageIo) (pipefds : List (ℕ × ℕ)) (f : Fds sh) :
    Fds sh :=
  closed io.outFd.toList (closed io.inFd.toList (closed (pipeEnds pipefds)
    (dupTo (stageStdout i st io pipefds) 1 (dupTo (stageStdin i st io pipefds) 0 f))))

variable {A : Role → Call sh → Fds sh → Prop} {r : Role}

theorem wp_wireStage {i : ℕ} {st : CommandStage} {io : StageIo} {Q : Role → Unit → Fds sh → Prop} :
    wp (fdLocal lim faults) A r (wireStage i st io pipefds) Q f ↔
      Q r () (wired i st io pipefds f) := by
  unfold wireStage
  simp only [wp_bind, wp_dupOpt (show 0 < 3 by omega), wp_dupOpt (show 1 < 3 by omega),
    wp_closeAllPipes, wp_closeOpt, wired]

theorem dupTo_of_ne {fd : Option ℕ} {dst : ℕ} (hb : b ≠ dst) : dupTo fd dst f b = f b := by
  cases fd with
  | none => rfl
  | some a =>
    change dup f a dst b = f b
    unfold dup
    cases f a with
    | none => rfl
    | some e => exact Function.update_of_ne hb ..

theorem dupTo_self {dst : ℕ} (ha : f a = some e) :
    dupTo (some a) dst f dst = some e := by
  unfold dupTo dup
  simp only [ha, Function.update_self]

section Wiring

variable {n i : ℕ} (st : CommandStage) {io : StageIo} (hf : Links pipefds f) (hio : IoOpen i io f)
include hf hio

/-- The standard descriptors are not closed again. -/
theorem wired_std (hfd : fd < 3) :
    wired i st io pipefds f fd =
      dupTo (stageStdout i st io pipefds) 1 (dupTo (stageStdin i st io pipefds) 0 f) fd := by
  obtain ⟨n, hn⟩ := hf.std fd hfd
  have hpipes : fd ∉ pipeEnds pipefds := hf.notMem hn id
  obtain ⟨hin, hout⟩ := hio.notMem hn
  unfold wired
  rw [closed_of_notMem hout, closed_of_notMem hin, closed_of_notMem hpipes]

omit hio in
/-- Above the first two descriptors no end of a pipe between stages is left. -/
theorem wired_other {fd : ℕ} {e : End sh} (h0 : fd ≠ 0) (h1 : fd ≠ 1)
    (he : wired i st io pipefds f fd = some e) : ¬IsLink e := by
  have hfd := of_closed (of_closed (of_closed he).2).2
  rw [dupTo_of_ne h1, dupTo_of_ne h0] at hfd
  exact fun hlink => hfd.1 (hf.only fd e hfd.2 hlink)

theorem wired_zero (hlen : pipefds.length + 1 = n) (hi : i < n) :
    ∃ e, wired i st io pipefds f 0 = some e ∧
      ((st.inputFiles = [] ∧ ∃ k, k + 1 = i ∧ e = .read (.link k)) ∨
        (¬(st.inputFiles = [] ∧ 0 < i) ∧ ¬IsLink e)) := by
  rw [wired_std st hf hio (by omega), dupTo_of_ne (by omega : (0 : ℕ) ≠ 1)]
  obtain ⟨n₀, hn₀⟩ := hf.std 0 (by omega)
  unfold stageStdin
  by_cases hin : st.inputFiles = []
  · rw [if_neg (not_not_intro hin)]
    by_cases hpos : 0 < i
    · obtain ⟨p, hp⟩ : ∃ p, pipefds[i - 1]? = some p :=
        ⟨_, List.getElem?_eq_getElem (by omega : i - 1 < pipefds.length)⟩
      rw [if_pos hpos, hp]
      exact ⟨_, dupTo_self (hf.read _ _ hp), Or.inl ⟨hin, i - 1, by omega, rfl⟩⟩
    · rw [if_neg hpos]
      exact ⟨_, hn₀, Or.inr ⟨fun h => hpos h.2, id⟩⟩
  · rw [if_pos hin]
    cases hfd : io.inFd with
    | none => exact ⟨_, hn₀, Or.inr ⟨fun h => hin h.1, id⟩⟩
    | some a =>
      exact ⟨_, dupTo_self (hio.inFd a hfd), Or.inr ⟨fun h => hin h.1, id⟩⟩

theorem wired_one (hlen : pipefds.length + 1 = n) :
    ∃ e, wired i st io pipefds f 1 = some e ∧
      ((st.outputFiles = [] ∧ i + 1 < n ∧ e = .write (.link i)) ∨
        (¬(st.outputFiles = [] ∧ i + 1 < n) ∧ ¬IsLink e)) := by
  rw [wired_std st hf hio (by omega)]
  obtain ⟨n₀, hn₀⟩ := hf.std 0 (by omega)
  obtain ⟨n₁, hn₁⟩ := hf.std 1 (by omega)
  -- the source of the second `dup2` is not the target of the first
  have hsrc : ∀ {b t}, f b = some (.write t) →
      dupTo (stageStdin i st io pipefds) 0 f b = some (.write t) := by
    intro b t hb
    have hb0 : b ≠ 0 := by
      rintro rfl
      rw [hn₀] at hb
      cases hb
    rw [dupTo_of_ne hb0, hb]
  have hkeep : dupTo (stageStdin i st io pipefds) 0 f 1 = some (.file n₁) := by
    rw [dupTo_of_ne (by omega : (1 : ℕ) ≠ 0), hn₁]
  unfold stageStdout
  by_cases hout : st.outputFiles = []
  · rw [if_neg (not_not_intro hout)]
    by_cases hi : i < pipefds.length
    · obtain ⟨p, hp⟩ : ∃ p, pipefds[i]? = some p := ⟨_, List.getElem?_eq_getElem hi⟩
      rw [hp]
      exact ⟨_, dupTo_self (hsrc (hf.write _ _ hp)), Or.inl ⟨hout, by omega, rfl⟩⟩
    · rw [List.getElem?_eq_none (by omega)]
      exact ⟨_, hkeep, Or.inr ⟨fun h => hi (by omega), id⟩⟩
  · rw [if_pos hout]
    cases hfd : io.outFd with
    | none => exact ⟨_, hkeep, Or.inr ⟨fun h => hout h.1, id⟩⟩
    | some b =>
      exact ⟨_, dupTo_self (hsrc (hio.outFd b hfd)),
        Or.inr ⟨fun h => hout h.1, id⟩⟩

/-- A wired stage has exactly its own two ends. -/
theorem stageEnds_wired (hlen : pipefds.length + 1 = n) (hi : i < n) :
    StageEnds n i st (wired i st io pipefds f) := by
  obtain ⟨e₀, he₀, h₀⟩ := wired_zero st hf hio hlen hi
  obtain ⟨e₁, he₁, h₁⟩ := wired_one st hf hio hlen
  intro fd k
  by_cases hfd0 : fd = 0
  · subst hfd0
    rw [he₀]
    rcases h₀ with ⟨hin, j, rfl, rfl⟩ | ⟨hno, hlink⟩
    · simp [hin]
      omega
    · refine ⟨⟨?_, by omega⟩, ⟨?_, ?_⟩⟩
      · rintro ⟨⟩
        exact absurd trivial hlink
      · rintro ⟨⟩
        exact absurd trivial hlink
      · rintro ⟨-, rfl, hin⟩
        exact absurd ⟨hin, Nat.succ_pos k⟩ hno
  by_cases hfd1 : fd = 1
  · subst hfd1
    rw [he₁]
    rcases h₁ with ⟨hout, hn, rfl⟩ | ⟨hno, hlink⟩
    · simp [hout]
      omega
    · refine ⟨⟨?_, ?_⟩, ⟨?_, by omega⟩⟩
      · rintro ⟨⟩
        exact absurd trivial hlink
      · rintro ⟨-, rfl, hn, hout⟩
        exact absurd ⟨hout, hn⟩ hno
      · rintro ⟨⟩
        exact absurd trivial hlink
  · refine ⟨⟨fun he => ?_, by omega⟩, ⟨fun he => ?_, by omega⟩⟩
    · exact absurd trivial (wired_other st hf hfd0 hfd1 he)
    · exact absurd trivial (wired_other st hf hfd0 hfd1 he)

end Wiring

theorem StageEnds.close {n i : ℕ} {st : CommandStage} (hh : StageEnds n i st h)
    (ha : 2 < a) : StageEnds n i st (Function.update h a none) := by
  intro fd k
  by_cases hfd : fd = a
  · subst hfd
    rw [Function.update_self]
    simp only [reduceCtorEq, false_iff]
    omega
  · rw [Function.update_of_ne hfd]
    exact hh fd k

/-! ### Every process of a pipeline -/

section Processes

variable (env : Env) (stages : List CommandStage)

/-- The table of a process at the calls where it can stop. -/
def EndsAt : Role → Call sh → Fds sh → Prop
  | .shell, .wait _ true, f => NoLinks f
  | .shell, _, _ => True
  | .stage i, _, f => ∃ st, stages[i]? = some st ∧ (env.resolve (commandName st)).isSome ∧
      StageEnds stages.length i st f
  | .writer _, _, f => NoLinks f
  | .reader _, _, f => NoLinks f

variable {env stages}

variable {i : ℕ} {done : List CommandStage} {setups : List Setup}
  {Q : Role → Unit → Fds sh → Prop} {pids : List (Option ℕ)} {sync : Option (ℕ × ℕ)}

theorem Links.helpersOk {st : CommandStage} (hf : Links pipefds f) :
    HelpersOk (EndsAt env stages) f pipefds i st where
  feed _ _ _ _ hinh _ := hinh.noLinks hf id
  drain _ _ _ _ _ hplug hinh :=
    hinh.noLinks (hf.plug hplug id) id

theorem Within.rfl : Within f f := fun _ _ he => he

theorem Within.closed (hg : Within g h) (fds : List ℕ) :
    Within (closed fds g) h := fun _ _ he => hg (of_closed he).2

theorem Within.noLinks (hg : Within g f) (hf : NoLinks f) : NoLinks g :=
  fun fd e he => hf fd e (hg he)

theorem Within.noLinks_closed (hg : Within g f) (hf : Links pipefds f) :
    NoLinks (Lib.Posix.closed (pipeEnds pipefds) g) := by
  intro fd e he hlink
  obtain ⟨hfd, he⟩ := of_closed he
  exact hfd (hf.only fd e (hg he) hlink)

/-- Creating the pipes; what was open stays open. -/
theorem wp_makePipes {n : ℕ} {Q : Role → List (ℕ × ℕ) × Bool → Fds sh → Prop}
    (hf : Links pipefds f)
    (hfail : ∀ pipefds' g, Links pipefds' g → Q r (pipefds', false) g)
    (hok : ∀ pipefds' g, Links pipefds' g → Within f g →
      pipefds'.length = pipefds.length + n → Q r (pipefds', true) g) :
    wp (fdLocal lim faults) A r (makePipes n pipefds.length pipefds) Q f := by
  induction n generalizing pipefds f with
  | zero => exact hok pipefds f hf Within.rfl rfl
  | succ n ih =>
    unfold makePipes
    rw [wp_bind]
    refine wp_pipe (fun a b ha hb hab => ?_) (fun _ => ?_)
    · have hlen : (pipefds ++ [(a, b)]).length = pipefds.length + 1 := List.length_append
      have hrest := ih (hf.snoc ha hb hab) fun pipefds' g hg hkeep hlen' =>
        hok pipefds' g hg (fun _ _ he => hkeep (piped_of_some ha hb he)) (by omega)
      rwa [hlen] at hrest
    · rw [wp_bind, wp_perror]
      exact hfail pipefds f hf

/-- What the loop over the stages has found out so far. -/
structure Prepared (env : Env) (done : List CommandStage) (setups : List Setup) (f : Fds sh) :
    Prop where
  resolved : List.Forall₂ (fun st s => s.resolved = env.resolve (commandName st)) done setups
  open_ : ∀ i s, setups[i]? = some s → IoOpen i s.io f

theorem Prepared.mono (h : Prepared env done setups f) (hfg : Within f g) :
    Prepared env done setups g :=
  ⟨h.resolved, fun i s hs => (h.open_ i s hs).mono hfg⟩

theorem StageOpen.links {io : StageIo} (h : StageOpen i f io g) (hf : Links pipefds f) :
    Links pipefds g := by
  obtain ⟨f₁, hin, hout⟩ := h
  exact (hf.plug hin id).plug hout id

theorem StageOpen.ioOpen {io : StageIo} (h : StageOpen i f io g) : IoOpen i io g := by
  obtain ⟨f₁, hin, hout⟩ := h
  refine ⟨fun a ha => ?_, fun b hb => ?_⟩
  · rw [ha] at hin
    exact hout.keeps hin.self
  · rw [hb] at hout
    exact hout.self

theorem Prepared.snoc (st : CommandStage) {io : StageIo} (h : Prepared env done setups f)
    (hg : StageOpen setups.length f io g) :
    Prepared env (done ++ [st]) (setups ++ [⟨io, env.resolve (commandName st)⟩]) g := by
  refine ⟨List.rel_append h.resolved (.cons rfl .nil), fun i s hs => ?_⟩
  rcases Lib.getElem?_concat_cases hs with hs | ⟨rfl, rfl⟩
  · exact (h.open_ i s hs).mono hg.keeps
  · exact hg.ioOpen

/-- An invariant of the loop over the stages: what setting up one stage keeps. -/
structure StagesInv (A : Role → Call sh → Fds sh → Prop) (env : Env) (pipefds : List (ℕ × ℕ))
    (Inv : List CommandStage → List Setup → Fds sh → Prop) : Prop where
  links : ∀ {done setups f}, Inv done setups f → Links pipefds f
  helpers : ∀ {done setups f} st, Inv done setups f →
    HelpersOk A f pipefds setups.length st
  snoc : ∀ {done setups f io g} st, Inv done setups f →
    (io.inFd = none ↔ st.inputFiles = []) → StageOpen setups.length f io g →
    Inv (done ++ [st]) (setups ++ [⟨io, env.resolve (commandName st)⟩]) g

theorem wp_setupStages {Inv : List CommandStage → List Setup → Fds sh → Prop}
    {todo : List CommandStage} {Q : Role → List Setup × Bool → Fds sh → Prop}
    (hI : StagesInv A env pipefds Inv) (h : Inv done setups f)
    (hfail : ∀ setups g, Links pipefds g → Q r (setups, false) g)
    (hok : ∀ setups g, Inv (done ++ todo) setups g → Q r (setups, true) g) :
    wp (fdLocal lim faults) A r (setupStages env pipefds todo setups.length setups) Q f := by
  induction todo generalizing done setups f with
  | nil =>
    rw [List.append_nil] at hok
    exact hok setups f h
  | cons st todo ih =>
    have hf := hI.links h
    unfold setupStages
    rw [wp_bind]
    refine wp_setupStage hf.pipesOpen (hI.helpers st h) (fun inFd writer g hg => ?_)
      (fun io g _ hin hg => ?_)
    · exact hfail _ g (hf.plug hg id)
    · have hlen : (setups ++ [(⟨io, env.resolve (commandName st)⟩ : Setup)]).length =
          setups.length + 1 := List.length_append
      have hrest := ih (hI.snoc st h hin hg) fun setups g hall => by
        rw [List.append_assoc, List.singleton_append] at hall
        exact hok setups g hall
      rw [hlen] at hrest
      dsimp only
      split
      · rwa [wp_bind, wp_printf]
      · exact hrest

theorem wp_undoStages (hA : ∀ pid g, A r (.wait pid false) g) (hg : Within g f)
    (hQ : ∀ g, Within g f → Q r () g) :
    wp (fdLocal lim faults) A r (undoStages setups) Q g := by
  induction setups generalizing g with
  | nil => exact hQ g hg
  | cons s setups ih =>
    unfold undoStages undoStage
    simp only [wp_bind, wp_closeOpt]
    refine wp_waitOpt (fun pid => hA pid _) (wp_waitOpt (fun pid => hA pid _) ?_)
    exact ih ((hg.closed _).closed _)

theorem wp_closeStages (hg : Within g f) (hQ : ∀ g, Within g f → Q r () g) :
    wp (fdLocal lim faults) A r (closeStages setups) Q g := by
  induction setups generalizing g with
  | nil => exact hQ g hg
  | cons s setups ih =>
    unfold closeStages
    simp only [wp_bind, wp_closeOpt]
    exact ih ((hg.closed _).closed _)

/-- Forking the stages does not change the table of the shell. -/
theorem wp_forkStages {child : StageProg} {rows : List (CommandStage × Setup)}
    {Q : Role → List (Option ℕ) → Fds sh → Prop}
    (hchild : ∀ j st s path pids, rows[j]? = some (st, s) → s.resolved = some path →
      wp (fdLocal lim faults) A (Role.stage (i + j)) (child (i + j) st s.io path pids) Q f)
    (hQ : ∀ pids, Q r pids f) :
    wp (fdLocal lim faults) A r (forkStages child rows i pids) Q f := by
  induction rows generalizing i pids with
  | nil => exact hQ pids
  | cons row rows ih =>
    obtain ⟨st, s⟩ := row
    have hrest : ∀ pids, wp (fdLocal lim faults) A r (forkStages child rows (i + 1) pids) Q f := by
      intro pids
      refine ih fun j st s path pids hrow hpath => ?_
      rw [Nat.add_assoc, Nat.add_comm 1 j]
      exact hchild (j + 1) st s path pids hrow hpath
    unfold forkStages
    split
    · exact hrest _
    · rename_i path hpath
      rw [wp_bind, wp_fork]
      refine ⟨hchild 0 st s path pids rfl hpath, fun pid => ?_, fun _ => ?_⟩
      · simp only [wp_bind, wp_setpgid]
        exact hrest _
      · simp only [wp_bind, wp_perror]
        exact hrest _

theorem wp_waitStages {rows : List (Setup × Option ℕ)} {leaderStatus : Status}
    {Q : Role → Status → Fds sh → Prop} (hA : ∀ pid u, A r (.wait pid u) f) (hQ : ∀ s, Q r s f) :
    wp (fdLocal lim faults) A r (waitStages rows i leaderStatus) Q f := by
  induction rows generalizing i leaderStatus with
  | nil => exact hQ leaderStatus
  | cons row rows ih =>
    obtain ⟨s, child⟩ := row
    cases child with
    | none => exact ih
    | some pid =>
      unfold waitStages
      rw [wp_bind, wp_wait]
      refine ⟨hA pid true, fun status => ?_⟩
      rw [wp_bind]
      refine wp_waitOpt (fun pid => hA pid false) ?_
      rw [wp_bind]
      exact wp_waitOpt (fun pid => hA pid false) ih

/-- What holds when the launch returns. -/
def Returned : Role → ℤ → Fds sh → Prop
  | .shell, _, f => NoLinks f
  | _, _, _ => True

theorem wp_pipelineParent (hf : Links pipefds f) :
    wp (fdLocal lim faults) (EndsAt env stages) Role.shell
      (pipelineParent stages pipefds setups pids) Returned f := by
  have hwait : ∀ g, Within g (closed (pipeEnds pipefds) f) →
      ∀ pid u, EndsAt env stages .shell (.wait pid u) g := by
    intro g hg pid u
    cases u with
    | false => exact trivial
    | true => exact hg.noLinks hf.noLinks_closed
  have hend : ∀ g, Within g (closed (pipeEnds pipefds) f) → ∀ rc, Returned .shell rc g :=
    fun g hg _ => hg.noLinks hf.noLinks_closed
  unfold pipelineParent
  cases leaderOf pids with
  | none =>
    simp only [wp_bind, wp_pure, wp_note, wp_closeAllPipes]
    refine wp_closeStages Within.rfl fun g hg => ?_
    exact wp_waitStages (hwait g hg) fun _ => hend g hg 0
  | some leader =>
    simp only [wp_bind, wp_note, wp_fdless (calls_registerStages fdless_book _), wp_closeAllPipes]
    refine wp_closeStages Within.rfl fun g hg => ?_
    refine wp_waitStages (hwait g hg) fun status => ?_
    unfold finishJob
    split
    · simp only [wp_bind, wp_book, wp_printf, wp_pure]
      exact fun _ => hend g hg 0
    · simp only [wp_bind, wp_note, wp_pure]
      exact hend g hg 0

/-- In the background the shell stops nowhere, and at the end the pipes are closed. -/
theorem wp_backgroundParent {Q : Role → ℤ → Fds sh → Prop}
    (hQ : ∀ rc g, Within g (closed (pipeEnds pipefds) f) → Q r rc g) :
    wp (fdLocal lim faults) A r (backgroundParent stages pipefds setups sync pids) Q f := by
  unfold backgroundParent
  cases leaderOf pids with
  | none =>
    simp only [wp_bind, wp_closeAllPipes]
    refine wp_closeStages Within.rfl fun g hg => ?_
    simp only [wp_closeOpt, wp_note, wp_pure]
    exact hQ (-1) _ ((hg.closed _).closed _)
  | some leader =>
    simp only [wp_bind, wp_closeAllPipes]
    refine wp_closeStages Within.rfl fun g hg => ?_
    simp only [wp_closeOpt, wp_book, wp_note, wp_printf, wp_pure,
      wp_fdless (calls_registerStagesBg fdless_book _ _)]
    exact fun _ => hQ 0 _ ((hg.closed _).closed _)

/-! ### Both kinds of pipelines -/

/-- A wired stage satisfies the assertion at its calls. -/
theorem endsAt_wired {st : CommandStage} {s : Setup} {path : Str} (hf : Links pipefds f)
    (hlen : pipefds.length + 1 = stages.length) (hprep : Prepared env stages setups f)
    (hrow : (stages.zip setups)[i]? = some (st, s)) (hpath : s.resolved = some path) :
    IoOpen i s.io f ∧ stages[i]? = some st ∧ (env.resolve (commandName st)).isSome ∧
      StageEnds stages.length i st (wired i st s.io pipefds f) := by
  obtain ⟨hst, hs⟩ := List.getElem?_zip_eq_some.mp hrow
  have hi : i < stages.length := (List.getElem?_eq_some_iff.mp hst).1
  have hio := hprep.open_ i s hs
  have hres : s.resolved = env.resolve (commandName st) := by
    have hmem : (st, s) ∈ stages.zip setups := List.mem_of_getElem? hrow
    exact (List.forall₂_iff_zip.mp hprep.resolved).2 hmem
  refine ⟨hio, hst, ?_, stageEnds_wired st hf hio hlen hi⟩
  rw [← hres, hpath]
  rfl

theorem wp_launchPipeline (hf : Links pipefds f) (hlen : pipefds.length + 1 = stages.length)
    (hprep : Prepared env stages setups f) :
    wp (fdLocal lim faults) (EndsAt env stages) Role.shell
      (launchPipeline stages pipefds setups) Returned f := by
  unfold launchPipeline
  simp only [wp_bind, wp_note]
  refine wp_forkStages (fun i st s path pids hrow hpath => ?_)
    (fun pids => wp_pipelineParent hf)
  rw [Nat.zero_add]
  obtain ⟨-, hends⟩ := endsAt_wired hf hlen hprep hrow hpath
  unfold stageChild
  simp only [wp_bind, wp_note, wp_wireStage]
  exact wp_execStage fun _ => ⟨st, hends⟩

theorem wp_stageChildBg {α : Type} {st : CommandStage} {io : StageIo} {path : Str}
    {Q : Role → α → Fds sh → Prop} (hst : stages[i]? = some st)
    (hres : (env.resolve (commandName st)).isSome)
    (hends : StageEnds stages.length i st (wired i st io pipefds f))
    (hsync : ∀ p, sync = some p → 2 < p.1) :
    wp (fdLocal lim faults) (EndsAt env stages) (Role.stage i)
      (stageChildBg pipefds sync i st io path pids) Q f := by
  unfold stageChildBg
  simp only [wp_bind, wp_note, wp_setpgid, wp_wireStage]
  cases sync with
  | none => exact wp_execStage fun _ => ⟨st, hst, hres, hends⟩
  | some p =>
    unfold passGate
    simp only [wp_bind, wp_readByte, wp_close]
    refine ⟨⟨st, hst, hres, hends⟩, wp_execStage fun _ => ⟨st, hst, hres, ?_⟩⟩
    exact hends.close (hsync p rfl)

/-- A descriptor that is free is not one of the first three. -/
theorem Links.free (hf : Links pipefds f) (ha : f a = none) : 2 < a := by
  by_contra hle
  obtain ⟨n, hn⟩ := hf.std a (by omega)
  rw [ha] at hn
  cases hn

theorem Gated.keeps (h : Gated f sync g) : Within f g := by
  cases sync with
  | none =>
    obtain rfl : g = f := h
    exact Within.rfl
  | some p =>
    obtain ⟨ha, hb, -, rfl⟩ := h
    exact piped_of_some ha hb

theorem Gated.links (h : Gated f sync g) (hf : Links pipefds f) :
    Links pipefds g := by
  cases sync with
  | none =>
    obtain rfl : g = f := h
    exact hf
  | some p =>
    obtain ⟨ha, hb, hab, rfl⟩ := h
    exact hf.gate ha hb hab

theorem Gated.two_lt (h : Gated f sync g) (hf : Links pipefds f) :
    ∀ p, sync = some p → 2 < p.1 := by
  intro p hp
  subst hp
  exact hf.free h.1

/-- In the background only the stages have work left after the set-up. -/
theorem wp_launchBackground {Q : Role → ℤ → Fds sh → Prop} (hf : Links pipefds f)
    (hchild : ∀ sync g (Q' : Role → List (Option ℕ) → Fds sh → Prop) i st s path pids,
      Gated f sync g → (stages.zip setups)[i]? = some (st, s) → s.resolved = some path →
      wp (fdLocal lim faults) A (Role.stage i) (stageChildBg pipefds sync i st s.io path pids) Q' g)
    (hQ : ∀ rc g, NoLinks g → Q r rc g) :
    wp (fdLocal lim faults) A r (launchBackground stages pipefds setups) Q f := by
  have hrest : ∀ sync g, Gated f sync g →
      wp (fdLocal lim faults) A r (do
        let pids ← forkStages (stageChildBg pipefds sync) (stages.zip setups) 0 []
        backgroundParent stages pipefds setups sync pids) Q g := by
    intro sync g hg
    rw [wp_bind]
    refine wp_forkStages (fun i st s path pids hrow hpath => ?_) (fun pids => ?_)
    · rw [Nat.zero_add]
      exact hchild sync g _ i st s path pids hg hrow hpath
    · refine wp_backgroundParent fun rc h hwithin => hQ rc h ?_
      exact hwithin.noLinks (hg.links hf).noLinks_closed
  unfold launchBackground
  rw [wp_bind, wp_note, wp_bind]
  refine wp_pipe (fun a b ha hb hab => ?_) (fun _ => ?_)
  · exact hrest (some (a, b)) _ ⟨ha, hb, hab, rfl⟩
  · exact hrest none f rfl

theorem endsAt_launchBackground (hf : Links pipefds f) (hlen : pipefds.length + 1 = stages.length)
    (hprep : Prepared env stages setups f) :
    wp (fdLocal lim faults) (EndsAt env stages) Role.shell
      (launchBackground stages pipefds setups) Returned f := by
  refine wp_launchBackground hf (fun sync g Q' i st s path pids hg hrow hpath => ?_)
    (fun _ _ hno => hno)
  obtain ⟨-, hst, hres, hends⟩ :=
    endsAt_wired (hg.links hf) hlen (hprep.mono hg.keeps) hrow hpath
  exact wp_stageChildBg hst hres hends (hg.two_lt hf)

theorem preparedInv : StagesInv (EndsAt env stages) env pipefds
    (fun done setups f => Links pipefds f ∧ Prepared env done setups f) where
  links h := h.1
  helpers _ h := h.1.helpersOk
  snoc st h _ hopen := ⟨hopen.links h.1, h.2.snoc st hopen⟩

/-- The first half of a pipeline, for an invariant of the loop over the stages. -/
theorem wp_preparePipeline {Inv : List (ℕ × ℕ) → List CommandStage → List Setup → Fds sh → Prop}
    {launch : List (ℕ × ℕ) → List Setup → Prog sh ℤ} {Q : Role → ℤ → Fds sh → Prop}
    (hf : ShellTable f) (hn : 2 ≤ stages.length)
    (hwait : ∀ pid g, A r (.wait pid false) g)
    (hI : ∀ pipefds, StagesInv A env pipefds (Inv pipefds))
    (hstart : ∀ pipefds g, Links pipefds g → Within f g → Inv pipefds [] [] g)
    (hlaunch : ∀ pipefds setups g, pipefds.length + 1 = stages.length →
      Inv pipefds stages setups g → wp (fdLocal lim faults) A r (launch pipefds setups) Q g)
    (hQ : ∀ rc g, NoLinks g → Q r rc g) :
    wp (fdLocal lim faults) A r (preparePipeline env stages launch) Q f := by
  unfold preparePipeline
  rw [wp_bind]
  refine wp_makePipes hf.links (fun pipefds g hg => ?_) (fun pipefds g hg hkeep hlen => ?_)
  · simp only [wp_bind, wp_closeAllPipes, wp_pure]
    exact hQ _ _ hg.noLinks_closed
  · rw [List.length_nil, Nat.zero_add] at hlen
    simp only [wp_bind]
    refine wp_setupStages (hI pipefds) (hstart pipefds g hg hkeep) (fun setups h hh => ?_)
      (fun setups h hall => ?_)
    · simp only [wp_bind]
      refine wp_undoStages hwait Within.rfl fun h' hh' => ?_
      simp only [wp_closeAllPipes, wp_pure]
      exact hQ _ _ (hh'.noLinks_closed hh)
    · exact hlaunch pipefds setups h (by omega) hall

end Processes

/-! ### Ownership -/

section Ownership

variable {env : Env} {stages : List CommandStage} {background : Bool} {p : Process sh ℤ} {k : ℕ}

/-- The process has made its own `dup2` and `close` calls and has not exited: the
shell has returned or waits for a stage, a stage is at the gate, about to be
executed or executed, a helper copies data or is done.  A shell that waits for a helper
is not counted: when a launch is given up, it does so with the pipes still open. -/
def Settled (p : Process sh ℤ) : Prop :=
  match p.role, p.code with
  | .shell, .running (.pure _) => True
  | .shell, .running (.call (.wait _ true) _) => True
  | .stage _, .running (.call (.readByte _) _) => True
  | .stage _, .running (.call (.exec _) _) => True
  | .stage _, .execd _ => True
  | .writer _, .running (.call (.feed _ _) _) => True
  | .writer _, .dead => True
  | .reader _, .running (.call (.drain _) _) => True
  | .reader _, .dead => True
  | _, _ => False

instance : DecidablePred Settled := by
  intro p
  unfold Settled
  split <;> infer_instance

theorem launchJob_eq (hn : 2 ≤ stages.length) :
    launchJob background env stages = preparePipeline env stages
      (if background then launchBackground stages else launchPipeline stages) := by
  obtain ⟨st, st', rest, rfl⟩ : ∃ st st' rest, stages = st :: st' :: rest := by
    match stages, hn with
    | st :: st' :: rest, _ => exact ⟨st, st', rest, rfl⟩
  cases background <;> rfl

theorem wp_launchJob (hn : 2 ≤ stages.length) (hf : ShellTable f) :
    wp (fdLocal lim faults) (EndsAt env stages) Role.shell (launchJob background env stages)
      Returned f := by
  rw [launchJob_eq hn]
  refine wp_preparePipeline hf hn (fun _ _ => trivial) (fun pipefds => preparedInv)
    (fun pipefds g hg _ => ⟨hg, .nil, fun i s hs => nomatch hs⟩)
    (fun pipefds setups g hlen hall => ?_) (fun _ _ hno => hno)
  cases background with
  | false => exact wp_launchPipeline hall.1 hlen hall.2
  | true => exact endsAt_launchBackground hall.1 hlen hall.2

/-- The launching functions keep the pact. -/
theorem mwp_launchJob (hn : 2 ≤ stages.length) (hf : ShellTable f) :
    mwp lim True (helperPact env stages) (launchJob background env stages) (fun _ _ => True)
      ⟨f, [], false⟩ := by
  rw [launchJob_eq hn]
  apply mwp_preparePipeline hf
  intro pipefds setups v hshelf hlate
  cases background with
  | false => exact mwp_launchPipeline hshelf hlate
  | true => exact mwp_launchBackground hshelf hlate

/-- The ends a process should have. -/
def OwnEnds (env : Env) (stages : List CommandStage) (p : Process sh ℤ) : Prop :=
  match p.role with
  | .stage i => ∃ st, stages[i]? = some st ∧ (env.resolve (commandName st)).isSome ∧
      StageEnds stages.length i st p.fds
  | _ => NoLinks p.fds

theorem noLinks_of_dead (hh : h = fun _ => none) : NoLinks h := by
  subst hh
  intro fd e he
  cases he

theorem ownEnds_of_settled
    (hp : p.Ok lim faults (EndsAt env stages) Returned) (hs : Settled p) :
    OwnEnds env stages p := by
  obtain ⟨role, fds, code⟩ := p
  unfold Settled at hs
  unfold OwnEnds
  dsimp only at hs ⊢
  split at hs
  · exact hp
  · exact hp.1 rfl
  · exact hp.1 rfl
  · exact hp.1 rfl
  · exact hp
  · exact hp.1 rfl
  · exact noLinks_of_dead hp
  · exact hp.1 rfl
  · exact noLinks_of_dead hp
  · cases hs

/-- An end that is held by stage `i` only. -/
theorem OwnEnds.iff {i : ℕ} {P : CommandStage → Prop} (hp : OwnEnds env stages p) (he : IsLink e)
    (hends : ∀ {j st}, StageEnds stages.length j st p.fds → (p.fds fd = some e ↔ i = j ∧ P st)) :
    p.fds fd = some e ↔ p.role = .stage i ∧ ∃ st, stages[i]? = some st ∧ P st := by
  unfold OwnEnds at hp
  split at hp
  · rename_i j hrole
    obtain ⟨st, hst, -, hstage⟩ := hp
    rw [hends hstage, hrole]
    constructor
    · rintro ⟨rfl, hP⟩
      exact ⟨rfl, st, hst, hP⟩
    · rintro ⟨hij, st', hst', hP⟩
      cases hij
      rw [hst] at hst'
      cases hst'
      exact ⟨rfl, hP⟩
  · rename_i hrole
    exact ⟨fun h => absurd he (hp fd _ h), fun h => absurd h.1 (hrole i)⟩

theorem OwnEnds.write_iff (hp : OwnEnds env stages p) :
    p.fds fd = some (.write (.link k)) ↔ fd = 1 ∧ p.role = .stage k ∧ k + 1 < stages.length ∧
      ∃ st, stages[k]? = some st ∧ st.outputFiles = [] := by
  refine (hp.iff (e := .write (.link k)) (P := fun st => fd = 1 ∧ k + 1 < stages.length ∧
    st.outputFiles = []) trivial fun hends => (hends fd k).1.trans (by tauto)).trans ⟨?_, ?_⟩
  · rintro ⟨hrole, st, hst, h1, hk, hout⟩
    exact ⟨h1, hrole, hk, st, hst, hout⟩
  · rintro ⟨h1, hrole, hk, st, hst, hout⟩
    exact ⟨hrole, st, hst, h1, hk, hout⟩

theorem OwnEnds.read_iff (hp : OwnEnds env stages p) :
    p.fds fd = some (.read (.link k)) ↔ fd = 0 ∧ p.role = .stage (k + 1) ∧
      ∃ st, stages[k + 1]? = some st ∧ st.inputFiles = [] := by
  refine (hp.iff (e := .read (.link k)) (P := fun st => fd = 0 ∧ st.inputFiles = []) trivial
    fun hends => (hends fd k).2.trans (by tauto)).trans ⟨?_, ?_⟩
  · rintro ⟨hrole, st, hst, h0, hin⟩
    exact ⟨h0, hrole, st, hst, hin⟩
  · rintro ⟨h0, hrole, st, hst, hin⟩
    exact ⟨hrole, st, hst, h0, hin⟩

/-- The holders of the ends of the pipes between the stages: the write end of pipe
`k` is held by stage `k`, as its standard output, unless its output is redirected;
the read end by stage `k + 1`, as its standard input, unless its input is
redirected; a stage is a single process and has resolved. -/
structure EndsOwned (env : Env) (stages : List CommandStage) (w : World sh ℤ) : Prop where
  write : ∀ p ∈ w.procs, ∀ fd k, p.fds fd = some (.write (.link k)) ↔
    fd = 1 ∧ p.role = .stage k ∧ k + 1 < stages.length ∧
      ∃ st, stages[k]? = some st ∧ st.outputFiles = []
  read : ∀ p ∈ w.procs, ∀ fd k, p.fds fd = some (.read (.link k)) ↔
    fd = 0 ∧ p.role = .stage (k + 1) ∧ ∃ st, stages[k + 1]? = some st ∧ st.inputFiles = []
  resolved : ∀ p ∈ w.procs, ∀ k, p.role = .stage k →
    ∃ st, stages[k]? = some st ∧ (env.resolve (commandName st)).isSome
  single : ∀ k, w.count (Role.stage k) ≤ 1

/-- **Each end has exactly the holder it should have.**  In every run of a pipeline
in which no pipe and no fork fails and no executed stage exits or closes its
descriptors, whenever every process has made its own `dup2` and `close` calls. -/
theorem pipe_ends_owned {w : World sh ℤ} {as : List (Act sh)}
    (hn : 2 ≤ stages.length) (hf : ShellTable f)
    (hrun : Reaches lim False False (launchJob background env stages) f as w)
    (hw : ∀ p ∈ w.procs, Settled p) : EndsOwned env stages w := by
  have hown : ∀ p ∈ w.procs, OwnEnds env stages p := by
    intro p hp
    refine ownEnds_of_settled (meets_run ?_ (fun _ _ _ hA => hA) False.elim
      (wp_launchJob hn hf) hrun p hp) (hw p hp)
    intro r fd n f hA
    cases r <;> exact hA
  refine ⟨fun p hp fd k => (hown p hp).write_iff, fun p hp fd k => (hown p hp).read_iff,
    fun p hp k hrole => ?_, fun k => ?_⟩
  · have hstage := hown p hp
    unfold OwnEnds at hstage
    rw [hrole] at hstage
    obtain ⟨st, hst, hres, -⟩ := hstage
    exact ⟨st, hst, hres⟩
  · -- the shell forks each stage once
    obtain ⟨v, hkept⟩ := kept_run (helperPact_sound env stages) (run_true hrun)
      ⟨_, Kept.start (mwp_launchJob hn hf)⟩
    obtain ⟨p, hp, hrole⟩ := run_role hrun (j := 0) rfl
    refine World.count_le_one (hkept.nodup_roles hp ?_) _
    rw [hrole]
    exact id

end Ownership

/-! ### The run of `a | b` -/

/-- The calls of the shell up to the first `waitpid`, then those of the stages up
to `execv`. -/
def aPipeBRun : List (Act sh) :=
  let v := Outcome.value 0
  ([.ok, v, .ok, v, .ok, v, v, v, v, v, v, .ok, .ok].map (Act.call 0)) ++
    ([v, v, .ok, .ok, .ok].map (Act.call 1)) ++ ([v, v, .ok, .ok, .ok].map (Act.call 2))

theorem pipe_ends_owned_aPipeB : ∃ w, Reaches ⟨4, 20⟩ False False
    (launchJob false plainEnv aPipeB) terminal aPipeBRun w ∧ (∀ p ∈ w.procs, Settled p) ∧
      EndsOwned plainEnv aPipeB w := by
  obtain ⟨w, hrun, hset⟩ : ∃ w, Reaches ⟨4, 20⟩ False False (launchJob false plainEnv aPipeB)
      terminal aPipeBRun w ∧ ∀ p ∈ w.procs, Settled p :=
    exists_reaches (by decide) (by decide +kernel)
  exact ⟨w, hrun, hset, pipe_ends_owned (by decide) shellTable_terminal hrun hset⟩

end Redirect
end RuShell
