import RuShell.Helpers
import RuShell.PipeEnds
import RuShell.Gate

/-!
# Aborting a pipeline

When a file cannot be opened, the shell goes through the stages that have been set up,
closes the ends of their redirections and waits for their helpers.  A helper of a later
stage still has the ends that it has inherited from the shell, so it has to end before one
of an earlier stage can, while the shell has yet to close the ends that it waits for.

That is no problem as long as at most one stage has helpers that wait for others at all: a
writer whose input fits into its pipe never does.

## Main definitions

* `Blocks` — the stage has a helper that can only end after others have.

## Main results

* `abort_returns` — if there is at most one such stage, the helper that the shell waits for
  can run to its end, and the shell returns.
* `abort_hangs` — two readers and a missing file.
-/

namespace RuShell
namespace Redirect

open Lib.Posix
open RuShell.Segment

variable {lim : Limits} {env : Env} {stages : List CommandStage} {w : World sh ℤ} {v : View sh}
  {Q : ℤ → View sh → Prop} {pid : ℕ} {p : Process sh ℤ}

/-- The stage has a reader, or a writer whose input does not fit into the pipe. -/
def Blocks (lim : Limits) (env : Env) (stages : List CommandStage) (roles : List Role) (i : ℕ) :
    Prop :=
  Role.reader i ∈ roles ∨ Role.writer i ∈ roles ∧ lim.cap < stageInput env stages i

/-! ### The helpers of one stage -/

section Undone

variable {i : ℕ}

/-- The shell has closed the ends of the stage, so the others that hold one are children. -/
theorem alone_of_cleared {e : End sh}
    (h : Kept lim True (helperPact env stages) Q w v) (hclear : Only (ClearedEnd i) v.fds)
    (he : ¬ ClearedEnd i e)
    (hkid : ∀ m q, w.procs[m + 1]? = some q → q.code ≠ .dead → m + 1 ≠ pid → NoEnd e q.fds) :
    Alone w pid e := by
  intro m q hq hm
  cases m with
  | zero =>
    obtain ⟨c, -, hfds, -⟩ := h.main_spec hq
    rw [hfds]
    exact hclear.noEnd he
  | succ m =>
    by_cases hdead : q.code = .dead
    · rcases h.kid_cases hq with ⟨-, hnone⟩ | ⟨n, hn, -⟩ | ⟨c, k, hc, -⟩
      · intro fd hfd
        rw [hnone] at hfd
        cases hfd
      · rw [hdead] at hn
        cases hn
      · rw [hdead] at hc
        cases hc
    · exact hkid m q hq hdead hm

/-- What is left when everybody has run to its end who can: helpers of stages that block. -/
theorem blocks_of_settled (h : Kept lim True (helperPact env stages) Q w v)
    (hkids : ∀ r ∈ v.kids, ∃ k, r = .writer k ∨ r = .reader k)
    (hno : ∀ j < v.kids.length, ¬ CanDie lim False w (j + 1)) {j : ℕ}
    (hp : w.procs[j + 1]? = some p) (halive : p.code ≠ .dead) :
    ∃ k, Blocks lim env stages v.kids k ∧ (p.role = .writer k ∨ p.role = .reader k) := by
  have hmem : p.role ∈ v.kids := List.mem_of_getElem? (h.role hp)
  have hj : j < v.kids.length := (List.getElem?_eq_some_iff.mp (h.role hp)).1
  obtain ⟨k, hrole⟩ := hkids p.role hmem
  refine ⟨k, ?_, hrole⟩
  rcases hrole with hrole | hrole
  · right
    refine ⟨hrole ▸ hmem, ?_⟩
    by_contra hsmall
    apply hno j hj
    exact canDie_small h hp hrole halive (not_lt.mp hsmall)
  · left
    exact hrole ▸ hmem

/-- If the shell has closed the ends of the only stage that blocks, then no helper of this
stage is left either: first its reader ends, for nobody can write any more, then its writer,
for nobody can read. -/
theorem dead_of_settled (h : Kept lim True (helperPact env stages) Q w v)
    (hkids : ∀ r ∈ v.kids, ∃ k, r = .writer k ∨ r = .reader k)
    (hclear : Only (ClearedEnd i) v.fds)
    (hone : ∀ k k', Blocks lim env stages v.kids k → Blocks lim env stages v.kids k' → k = k')
    (hno : ∀ j < v.kids.length, ¬ CanDie lim False w (j + 1)) {j : ℕ}
    (hp : w.procs[j + 1]? = some p) (hrole : p.role = .writer i ∨ p.role = .reader i) :
    p.code = .dead := by
  by_contra halive
  have hlt : ∀ {m q}, w.procs[m + 1]? = some q → m < v.kids.length := by
    intro m q hq
    exact (List.getElem?_eq_some_iff.mp (h.role hq)).1
  -- every process that is left belongs to the stage
  have hblocks : Blocks lim env stages v.kids i := by
    obtain ⟨k, hk, hrole'⟩ := blocks_of_settled h hkids hno hp halive
    rcases hrole with hrole | hrole <;> rcases hrole' with hrole' | hrole' <;>
      rw [hrole] at hrole' <;> cases hrole' <;> exact hk
  have hleft : ∀ {m q}, w.procs[m + 1]? = some q → q.code ≠ .dead →
      q.role = .writer i ∨ q.role = .reader i := by
    intro m q hq hq'
    obtain ⟨k, hk, hrole'⟩ := blocks_of_settled h hkids hno hq hq'
    rwa [hone k i hk hblocks] at hrole'
  have hreader : ∀ {m q}, w.procs[m + 1]? = some q → q.role = .reader i → q.code = .dead := by
    intro m q hq hqrole
    by_contra hqalive
    apply hno m (hlt hq)
    apply canDie_reader h hq hqrole hqalive
    apply alone_of_cleared h hclear (e := .write (.output i)) (lt_irrefl i)
    intro m' q' hq' halive' hne
    have honly := kept_only h hq'
    rcases hleft hq' halive' with hrole' | hrole'
    · rw [hrole'] at honly
      exact honly.noEnd (e := .write (.output i)) (lt_irrefl i)
    · exact absurd (h.unique hq' hq (hrole'.trans hqrole.symm)) fun heq => hne (heq ▸ rfl)
  rcases hrole with hrole | hrole
  · apply hno j (hlt hp)
    apply canDie_writer h hp hrole halive
    apply alone_of_cleared h hclear (e := .read (.input i)) (lt_irrefl i)
    intro m' q' hq' halive' hne
    rcases hleft hq' halive' with hrole' | hrole'
    · exact absurd (h.unique hq' hp (hrole'.trans hrole.symm)) fun heq => hne (heq ▸ rfl)
    · exact absurd (hreader hq' hrole') halive'
  · exact halive (hreader hp hrole)

/-- The helper that the shell waits for can run to its end with the help of the others. -/
theorem helper_ends (h : Kept lim True (helperPact env stages) Q w v)
    (hkids : ∀ r ∈ v.kids, ∀ k, r ≠ .stage k)
    (hone : ∀ k k', Blocks lim env stages v.kids k → Blocks lim env stages v.kids k' → k = k')
    (hwaits : WaitsFor pid v) :
    ∃ as w', Lib.Run (Steps (I := sh) lim False False) w as w' ∧ (∀ a ∈ as, a.pid ≠ 0) ∧
      w'.isDead pid = true := by
  obtain ⟨m, i, rfl, hrole, hstage | ⟨hhelpers, hclear⟩⟩ := hwaits
  · exact absurd rfl (hkids _ hstage i)
  obtain ⟨as, w', hrun, has, hno⟩ : ∃ as w', Lib.Run (Steps (I := sh) lim False False) w as w' ∧
      (∀ a ∈ as, a.pid ∈ Finset.Icc 1 v.kids.length) ∧
      ∀ pid ∈ Finset.Icc 1 v.kids.length, ¬ CanDie lim False w' pid := exists_run_settled _ w
  have hpids : ∀ a ∈ as, a.pid ≠ 0 := by
    intro a ha hzero
    have hmem := has a ha
    rw [hzero, Finset.mem_Icc] at hmem
    omega
  have h' := h.run_kids (helperPact_sound env stages) hrun hpids
  have hm : m < v.kids.length := by
    rcases hrole with hrole | hrole <;> exact (List.getElem?_eq_some_iff.mp hrole).1
  have hlen := h'.length
  obtain ⟨p, hp⟩ : ∃ p, w'.procs[m + 1]? = some p := ⟨_, List.getElem?_eq_getElem (by omega)⟩
  refine ⟨as, w', hrun, hpids, isDead_iff.mpr ⟨p, hp, ?_⟩⟩
  apply dead_of_settled h' hhelpers hclear hone
  · intro j hj
    apply hno
    rw [Finset.mem_Icc]
    omega
  · exact hp
  · rw [h'.role hp] at hrole
    exact hrole.imp Option.some.inj Option.some.inj

end Undone

/-! ### The shell returns -/

/-- The children are the processes but the first. -/
theorem mem_roles_of_kid (h : Kept lim True (helperPact env stages) Q w v) {r : Role}
    (hr : r ∈ v.kids) : r ∈ w.procs.map (·.role) := by
  obtain ⟨p, -, hp, -⟩ := h.main
  rw [h.map_role hp]
  exact List.mem_cons_of_mem _ hr

theorem Blocks.mono {roles roles' : List Role} {i : ℕ} (h : Blocks lim env stages roles i)
    (hsub : ∀ r ∈ roles, r ∈ roles') : Blocks lim env stages roles' i := by
  rcases h with h | ⟨h, hsize⟩
  · exact .inl (hsub _ h)
  · exact .inr ⟨hsub _ h, hsize⟩

/-- **Aborting a pipeline does not hang the shell**, if at most one stage has helpers that
wait for others.  Whenever the shell waits for a helper and no stage has been forked, the
helpers alone can get to a state in which this one is dead, and the shell can get to its
return without being interrupted. -/
theorem abort_returns {background : Bool} {f : Fds sh} {as : List (Act sh)}
    {k : Status → Prog sh ℤ} (hn : 2 ≤ stages.length) (hf : ShellTable f)
    (hrun : Reaches lim True True (launchJob background env stages) f as w)
    (hp : w.procs[0]? = some p) (hcode : p.code = .running (.call (.wait pid false) k))
    (habort : ∀ r ∈ w.procs.map (·.role), ∀ i, r ≠ .stage i)
    (hone : ∀ i j, Blocks lim env stages (w.procs.map (·.role)) i →
      Blocks lim env stages (w.procs.map (·.role)) j → i = j) :
    (∃ as w', Lib.Run (Steps (I := sh) lim False False) w as w' ∧ (∀ a ∈ as, a.pid ≠ 0) ∧
      w'.isDead pid = true) ∧
    Returns (I := sh) lim (fun a => ∀ s, a ≠ .call 0 (.interrupted s)) w := by
  have hsound := helperPact_sound env stages
  obtain ⟨v, hkept⟩ := kept_run hsound hrun ⟨_, Kept.start (mwp_launchJob hn hf)⟩
  have hkids : ∀ r ∈ v.kids, ∀ i, r ≠ .stage i := by
    intro r hr
    exact habort r (mem_roles_of_kid hkept hr)
  have hone' : ∀ i j, Blocks lim env stages v.kids i → Blocks lim env stages v.kids j → i = j := by
    intro i j hi hj
    have hsub : ∀ r ∈ v.kids, r ∈ w.procs.map (·.role) := fun r => mem_roles_of_kid hkept
    exact hone i j (hi.mono hsub) (hj.mono hsub)
  constructor
  · apply helper_ends hkept hkids hone'
    exact (hkept.main_running hp hcode).2.1
  · apply hkept.returns hsound _ _ (rfl : v.kids = v.kids) hp hcode (.inr ⟨pid, false, k, rfl⟩)
    · intro o ho s heq
      cases heq
      exact ho s rfl
    · intro w' v' h hkept' hv' hwaits
      rw [← hv'] at hkids hone'
      obtain ⟨as', w₂, hrun', has', hdead⟩ := helper_ends hkept' hkids hone' hwaits
      refine ⟨as', w₂, hrun', fun a ha => ⟨has' a ha, fun s heq => ?_⟩, hdead⟩
      apply has' a ha
      rw [heq]
      rfl

/-! ### Runs that are aborted -/

/-- The shell waits for the helper `pid`, computed. -/
def shellAwaits (w : World sh ℤ) (pid : ℕ) : Bool :=
  match w.procs[(0 : ℕ)]? with
  | some ⟨_, _, .running (.call (.wait q false) _)⟩ => q = pid
  | _ => false

theorem exists_of_shellAwaits (h : shellAwaits w pid = true) :
    ∃ p k, w.procs[0]? = some p ∧ p.code = .running (.call (.wait pid false) k) := by
  unfold shellAwaits at h
  split at h
  · rename_i role fds q k hp
    obtain rfl : q = pid := of_decide_eq_true h
    exact ⟨_, k, hp, rfl⟩
  · cases h

/-- `a < x > f | b < y` -/
def aInOutB : List CommandStage := [⟨[['a']], [['x']], [(['f'], false)]⟩, ⟨[['b']], [['y']], []⟩]

/-- The shell sets up the first stage, cannot open `y`, and gets to its first wait. -/
def aInOutBRun : List (Act sh) :=
  let v := Outcome.value 0
  [.ok, .ok, .ok, .ok, .ok, .ok, .ok, .ok, .ok, .ok, .ok, .ok, .refused, v, .ok, .ok, .ok,
    .ok].map (Act.call 0)

/-- Two helpers that wait for others, of one stage. -/
theorem abort_returns_one : ∃ w, Reaches usualLimits True True
    (launchJob false { plainEnv with size := fun _ => 100000 } aInOutB) terminal aInOutBRun w ∧
    shellAwaits w 1 = true ∧ w.procs.map (·.role) = [.shell, .writer 0, .reader 0] ∧
    (∃ as w', Lib.Run (Steps (I := sh) usualLimits False False) w as w' ∧
      (∀ a ∈ as, a.pid ≠ 0) ∧ w'.isDead 1 = true) ∧
    Returns (I := sh) usualLimits (fun a => ∀ s, a ≠ .call 0 (.interrupted s)) w := by
  obtain ⟨w, hrun, hawaits, hroles⟩ : ∃ w, Reaches usualLimits True True
      (launchJob false { plainEnv with size := fun _ => 100000 } aInOutB) terminal aInOutBRun w ∧
      shellAwaits w 1 = true ∧ w.procs.map (·.role) = [Role.shell, .writer 0, .reader 0] :=
    exists_reaches (fun a _ => allowed_true a) (by decide +kernel)
  obtain ⟨p, k, hp, hcode⟩ := exists_of_shellAwaits hawaits
  refine ⟨w, hrun, hawaits, hroles, ?_⟩
  refine abort_returns (by decide) shellTable_terminal hrun hp hcode ?_ ?_
  · rw [hroles]
    simp
  · have hzero : ∀ i, Blocks usualLimits { plainEnv with size := fun _ => 100000 } aInOutB
        (w.procs.map (·.role)) i → i = 0 := by
      intro i hi
      rw [hroles] at hi
      rcases hi with hi | ⟨hi, -⟩ <;> simpa using hi
    intro i j hi hj
    rw [hzero i hi, hzero j hj]

/-- `a > f | b > g | c < y` -/
def aBOutC : List CommandStage :=
  [⟨[['a']], [], [(['f'], false)]⟩, ⟨[['b']], [], [(['g'], false)]⟩, ⟨[['c']], [['y']], []⟩]

/-- The shell sets up the first two stages, cannot open `y`, and gets to its first wait; the
readers get to their first `read`. -/
def aBOutCRun : List (Act sh) :=
  let v := Outcome.value 0
  ([.ok, .ok, .ok, .ok, .ok, .ok, .ok, .ok, .ok, .ok, .ok, .ok, .ok, .refused, v, .ok, .ok,
    .ok].map (Act.call 0)) ++
    ([.ok, .ok, .ok, .ok, .ok].map (Act.call 1)) ++ ([.ok, .ok, .ok, .ok, .ok].map (Act.call 2))

/-- The process reads from the pipe until end of file, computed. -/
def drains (w : World sh ℤ) (pid : ℕ) (t : PipeTag) : Bool :=
  match w.procs[pid]? with
  | some ⟨_, fds, .running (.call (.drain fd) _)⟩ => fds fd = some (.read t)
  | _ => false

theorem waits_of_drains {t : PipeTag} (h : drains w pid t = true) (hempty : w.fill t = 0)
    (hheld : w.held lim (.write t) = true) : Waits (I := sh) lim w pid := by
  unfold drains at h
  split at h
  · rename_i role fds fd k hp
    exact waits_drain hp rfl (of_decide_eq_true h) hempty hheld
  · cases h

/-- There is no such process. -/
theorem waits_absent {roles : List Role} (hroles : w.procs.map (·.role) = roles)
    (hpid : roles.length ≤ pid) : Waits (I := sh) lim w pid := by
  intro a ha _
  apply step_absent
  rw [ha]
  apply List.getElem?_eq_none
  rwa [← hroles, List.length_map] at hpid

/-- The reader of the first stage waits for that of the second to close its copy of the write
end, that one for the shell, and the shell for the first. -/
theorem abort_hangs : ∃ w, Reaches usualLimits False False (launchJob false plainEnv aBOutC)
    terminal aBOutCRun w ∧ shellAwaits w 1 = true ∧
    w.procs.map (·.role) = [.shell, .reader 0, .reader 1] ∧
    ∀ pid, Waits (I := sh) usualLimits w pid := by
  obtain ⟨w, hrun, hawaits, hroles, halive, ⟨hdrain₁, hempty₁, hheld₁⟩, hdrain₂, hempty₂,
      hheld₂⟩ : ∃ w, Reaches usualLimits False False (launchJob false plainEnv aBOutC) terminal
        aBOutCRun w ∧ shellAwaits w 1 = true ∧
        w.procs.map (·.role) = [Role.shell, .reader 0, .reader 1] ∧ w.isDead 1 = false ∧
        (drains w 1 (.output 0) = true ∧ w.fill (PipeTag.output 0) = 0 ∧
          w.held usualLimits (.write (.output 0)) = true) ∧
        drains w 2 (.output 1) = true ∧ w.fill (PipeTag.output 1) = 0 ∧
          w.held usualLimits (.write (.output 1)) = true :=
    exists_reaches (by decide) (by decide +kernel)
  refine ⟨w, hrun, hawaits, hroles, ?_⟩
  intro pid
  match pid with
  | 0 =>
    obtain ⟨p, k, hp, hcode⟩ := exists_of_shellAwaits hawaits
    exact waits_wait hp hcode halive
  | 1 => exact waits_of_drains hdrain₁ hempty₁ hheld₁
  | 2 => exact waits_of_drains hdrain₂ hempty₂ hheld₂
  | pid + 3 => exact waits_absent hroles (by simp)

end Redirect
end RuShell
