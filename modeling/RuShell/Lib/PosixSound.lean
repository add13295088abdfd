import RuShell.Lib.PosixWp

/-!
# Every interleaving

`Move` lists what a step can do to the world.  From it, `meets_sound` carries the
assertions about one process over to all processes of every run.

## Main definitions

* `Move` — the effect of a step.
* `Process.Meets`, `Process.Ok` — what is known of a process.

## Main results

* `step_move` — every step is one of the moves.
* `meets_sound`, `meets_run` — the assertions hold in every state of every run.
-/

namespace RuShell
namespace Lib
namespace Posix

variable {I : Iface}

/-! ### What a step can do -/

section Moves

variable {α : Type} {lim : Limits} [DecidableEq I.Tag] [DecidableEq I.Name]

/-- What a step does to the world: one process changes and one may be added, and
pipes fill by single bytes. -/
inductive Move (lim : Limits) (w : World I α) : Act I → World I α → Prop
  | call {pid : ℕ} {o : Outcome} {p : Process I α} {c : Call I} {k : c.Ret → Prog I α} {x : c.Ret}
      {f : Fds I} {fill : I.Tag → ℕ} (hp : w.procs[pid]? = some p)
      (hcode : p.code = .running (.call c k))
      (hnext : ∀ faults : Prop, (o = .fault → faults) → (fdLocal lim faults).next c p.fds x f)
      (hfill : ∀ t, fill t ≤ w.fill t) :
      Move lim w (.call pid o)
        ⟨w.procs.set pid { p with fds := f, code := .running (k x) }, fill⟩
  | feed {pid fd n : ℕ} {p : Process I α} {k : Unit → Prog I α} {t : I.Tag}
      (hp : w.procs[pid]? = some p) (hcode : p.code = .running (.call (.feed fd (n + 1)) k))
      (hfd : p.fds fd = some (.write t)) :
      Move lim w (.call pid .ok)
        ⟨w.procs.set pid { p with code := .running (.call (.feed fd n) k) },
          Function.update w.fill t (w.fill t + 1)⟩
  | drain {pid fd : ℕ} {p : Process I α} {k : Unit → Prog I α} {fill : I.Tag → ℕ}
      (hp : w.procs[pid]? = some p) (hcode : p.code = .running (.call (.drain fd) k))
      (hfill : ∀ t, fill t ≤ w.fill t) :
      Move lim w (.call pid .ok) ⟨w.procs, fill⟩
  | exec {pid : ℕ} {p : Process I α} {n : I.Name} {k : Unit → Prog I α}
      (hp : w.procs[pid]? = some p) (hcode : p.code = .running (.call (.exec n) k)) :
      Move lim w (.call pid .ok) ⟨w.procs.set pid { p with code := .execd n }, w.fill⟩
  | kill {pid : ℕ} {p : Process I α} {c : Call I} {k : c.Ret → Prog I α}
      (hp : w.procs[pid]? = some p) (hcode : p.code = .running (.call c k))
      (hc : (∃ fd n, c = .feed fd n) ∨ ∃ n, c = .exit n) :
      Move lim w (.call pid .ok) ⟨w.procs.set pid p.kill, w.fill⟩
  | fork {pid : ℕ} {p : Process I α} {r : I.Role} {k : Forked → Prog I α}
      (hp : w.procs[pid]? = some p) (hcode : p.code = .running (.fork r k)) :
      Move lim w (.call pid .ok)
        ⟨w.procs.set pid { p with code := .running (k (.parent w.procs.length)) } ++
          [⟨r, p.fds, .running (k .child)⟩], w.fill⟩
  | forkFail {pid : ℕ} {p : Process I α} {r : I.Role} {k : Forked → Prog I α}
      (hp : w.procs[pid]? = some p) (hcode : p.code = .running (.fork r k)) :
      Move lim w (.call pid .fault)
        ⟨w.procs.set pid { p with code := .running (k .failed) }, w.fill⟩
  | extExit {pid : ℕ} {p : Process I α} {n : I.Name} (hp : w.procs[pid]? = some p)
      (hcode : p.code = .execd n) :
      Move lim w (.ext pid .exit) ⟨w.procs.set pid p.kill, w.fill⟩
  | extClose {pid fd : ℕ} {p : Process I α} {n : I.Name} (hp : w.procs[pid]? = some p)
      (hcode : p.code = .execd n) :
      Move lim w (.ext pid (.close fd))
        ⟨w.procs.set pid ⟨p.role, Function.update p.fds fd none, .execd n⟩, w.fill⟩
  | extConsume {pid fd : ℕ} {fill : I.Tag → ℕ} (hfill : ∀ t, fill t ≤ w.fill t) :
      Move lim w (.ext pid (.consume fd)) ⟨w.procs, fill⟩
  | extProduce {pid fd : ℕ} {p : Process I α} {n : I.Name} {t : I.Tag}
      (hp : w.procs[pid]? = some p) (hcode : p.code = .execd n)
      (hfd : p.fds fd = some (.write t)) :
      Move lim w (.ext pid (.produce fd)) ⟨w.procs, Function.update w.fill t (w.fill t + 1)⟩

omit [DecidableEq I.Name] in
/-- Taking bytes out of a pipe. -/
theorem update_fill_le {fill : I.Tag → ℕ} {t : I.Tag} {n : ℕ} (hn : n ≤ fill t) (t' : I.Tag) :
    Function.update fill t n t' ≤ fill t' := by
  by_cases ht : t' = t
  · subst ht
    rwa [Function.update_self]
  · rw [Function.update_of_ne ht]

theorem callStep_move {w w' : World I α} {pid : ℕ} {p : Process I α} {c : Call I}
    {k : c.Ret → Prog I α} {o : Outcome} (hp : w.procs[pid]? = some p)
    (hcode : p.code = .running (.call c k)) (h : w.callStep lim pid p c k o = some w') :
    Move lim w (.call pid o) w' := by
  have hsame : ∀ t, w.fill t ≤ w.fill t := fun _ => le_rfl
  cases c with
  | wait q u =>
    cases o with
    | status s =>
      simp only [World.callStep] at h
      split at h
      · cases h
        exact .call hp hcode (fun _ _ => rfl) hsame
      · cases h
    | interrupted s =>
      cases h
      exact .call hp hcode (fun _ _ => rfl) hsame
    | _ => cases h
  | readByte fd =>
    cases o with
    | ok =>
      simp only [World.callStep] at h
      split at h
      · split at h
        · cases h
          exact .call hp hcode (fun _ _ => rfl) (update_fill_le (Nat.sub_le _ _))
        · split at h
          · cases h
          · cases h
            exact .call hp hcode (fun _ _ => rfl) hsame
      · cases h
        exact .call hp hcode (fun _ _ => rfl) hsame
    | _ => cases h
  | feed fd n =>
    cases o with
    | ok =>
      cases n with
      | zero =>
        cases h
        exact .call hp hcode (fun _ _ => rfl) hsame
      | succ n =>
        simp only [World.callStep] at h
        split at h
        · rename_i hfd
          split at h
          · split at h
            · cases h
              exact .feed hp hcode hfd
            · cases h
          · cases h
            exact .kill hp hcode (.inl ⟨_, _, rfl⟩)
        · cases h
          exact .call hp hcode (fun _ _ => rfl) hsame
    | _ => cases n <;> cases h
  | drain fd =>
    cases o with
    | ok =>
      simp only [World.callStep] at h
      split at h
      · split at h
        · cases h
          exact .drain hp hcode (update_fill_le (Nat.zero_le _))
        · split at h
          · cases h
          · cases h
            exact .call hp hcode (fun _ _ => rfl) hsame
      · cases h
        exact .call hp hcode (fun _ _ => rfl) hsame
    | _ => cases h
  | exec n =>
    cases o with
    | ok =>
      cases h
      exact .exec hp hcode
    | refused =>
      cases h
      exact .call hp hcode (fun _ _ => rfl) hsame
    | _ => cases h
  | exit n =>
    cases o with
    | ok =>
      cases h
      exact .kill hp hcode (.inr ⟨_, rfl⟩)
    | _ => cases h
  | _ =>
    simp only [World.callStep] at h
    split at h
    · cases h
    · rename_i hx
      cases h
      exact .call hp hcode (fun _ ho => localStep_next hx ho) hsame

/-- Every step is one of the moves. -/
theorem step_move {w w' : World I α} {a : Act I} (h : step lim w a = some w') :
    Move lim w a w' := by
  cases a with
  | call pid o =>
    simp only [step] at h
    split at h
    · cases h
    · rename_i p hp
      split at h
      · rename_i c k o hcode
        exact callStep_move hp hcode h
      · rename_i r k hcode
        cases h
        exact .fork hp hcode
      · rename_i r k hcode
        cases h
        exact .forkFail hp hcode
      · cases h
  | ext pid x =>
    simp only [step] at h
    split at h
    · cases h
    · rename_i p hp
      split at h
      · rename_i n hcode
        cases x with
        | exit =>
          cases h
          exact .extExit hp hcode
        | close fd =>
          cases h
          simp only [hcode]
          exact .extClose hp hcode
        | consume fd =>
          simp only [World.extStep] at h
          split at h
          · split at h
            · cases h
              exact .extConsume (update_fill_le (Nat.sub_le _ _))
            · cases h
          · cases h
        | produce fd =>
          simp only [World.extStep] at h
          split at h
          · rename_i hfd
            split at h
            · cases h
              exact .extProduce hp hcode hfd
            · cases h
          · cases h
      · cases h

end Moves

/-! ### Every interleaving -/

section Sound

variable {α : Type} {lim : Limits} {faults exts : Prop}
  {A : I.Role → Call I → Fds I → Prop} {Q : I.Role → α → Fds I → Prop}

/-- The steps under consideration: whether the system may run out of pipes and
processes, and whether executed programs close descriptors or exit. -/
def Act.Allowed (faults exts : Prop) : Act I → Prop
  | .call _ .fault => faults
  | .ext _ .exit => exts
  | .ext _ (.close _) => exts
  | _ => True

instance [Decidable faults] [Decidable exts] :
    DecidablePred (Act.Allowed (I := I) faults exts) := by
  intro a
  unfold Act.Allowed
  split <;> infer_instance

/-- What is known of a process; `E` is about the programs that are executed, which may do
anything with their descriptors. -/
def Process.Meets (lim : Limits) (faults : Prop) (A : I.Role → Call I → Fds I → Prop)
    (E : I.Role → I.Name → Fds I → Prop) (Q : I.Role → α → Fds I → Prop) (p : Process I α) :
    Prop :=
  match p.code with
  | .running c => wp (fdLocal lim faults) A p.role c Q p.fds
  | .execd n => E p.role n p.fds
  | .dead => p.fds = fun _ => none

/-- The case of one assertion. -/
abbrev Process.Ok (lim : Limits) (faults : Prop) (A : I.Role → Call I → Fds I → Prop)
    (Q : I.Role → α → Fds I → Prop) (p : Process I α) : Prop :=
  p.Meets lim faults A (fun r n => A r (.exec n)) Q

variable {p : Process I α} {w : World I α} {E : I.Role → I.Name → Fds I → Prop}

theorem Process.Meets.of_running {c : Prog I α} (hp : p.Meets lim faults A E Q)
    (hc : p.code = .running c) :
    wp (fdLocal lim faults) A p.role c Q p.fds := by
  unfold Process.Meets at hp
  rwa [hc] at hp

theorem Process.Meets.of_execd {n : I.Name} (hp : p.Meets lim faults A E Q)
    (hc : p.code = .execd n) : E p.role n p.fds := by
  unfold Process.Meets at hp
  rwa [hc] at hp

/-- Replacing one process. -/
theorem meets_set {ps : List (Process I α)} (hw : ∀ p ∈ ps, p.Meets lim faults A E Q) {pid : ℕ}
    {q : Process I α} (hq : q.Meets lim faults A E Q) :
    ∀ p ∈ ps.set pid q, p.Meets lim faults A E Q := by
  intro p hp
  rcases List.mem_or_eq_of_mem_set hp with h | h
  · exact hw p h
  · rw [h]
    exact hq

variable [DecidableEq I.Tag] [DecidableEq I.Name]

/-- **Soundness**: what `wp` asserts of the first process holds of every process,
whatever the order of their steps. -/
theorem meets_sound {w' : World I α} {a : Act I}
    (hfeed : ∀ r fd n f, A r (.feed fd (n + 1)) f → A r (.feed fd n) f)
    (hexec : ∀ r n f, A r (.exec n) f → E r n f)
    (hext : exts → ∀ r n f fd, E r n f → E r n (Function.update f fd none))
    (ha : a.Allowed faults exts) (hw : ∀ p ∈ w.procs, p.Meets lim faults A E Q)
    (h : step lim w a = some w') : ∀ p ∈ w'.procs, p.Meets lim faults A E Q := by
  have hdead : ∀ p : Process I α, p.kill.Meets lim faults A E Q := fun _ => rfl
  have hpok : ∀ {pid : ℕ} {p : Process I α}, w.procs[pid]? = some p →
      p.Meets lim faults A E Q := fun hp => hw _ (List.mem_of_getElem? hp)
  cases step_move h with
  | @call pid o p c k x f fill hp hcode hnext hfill =>
    have ho : o = .fault → faults := by
      rintro rfl
      exact ha
    exact meets_set hw (((hpok hp).of_running hcode).2 x f (hnext faults ho))
  | feed hp hcode hfd =>
    obtain ⟨hstop, hrest⟩ := (hpok hp).of_running hcode
    exact meets_set hw ⟨fun _ => hfeed _ _ _ _ (hstop rfl), hrest⟩
  | drain hp hcode hfill | extConsume hfill | extProduce hp hcode hfd => exact hw
  | exec hp hcode => exact meets_set hw (hexec _ _ _ (((hpok hp).of_running hcode).1 rfl))
  | kill hp hcode | extExit hp hcode => exact meets_set hw (hdead _)
  | @fork pid p r k hp hcode =>
    obtain ⟨hchild, hparent, -⟩ := (hpok hp).of_running hcode
    have hpar : Process.Meets lim faults A E Q
        { p with code := .running (k (.parent w.procs.length)) } := hparent _
    intro q hq
    rcases List.mem_append.mp hq with hq | hq
    · exact meets_set hw hpar q hq
    · rw [List.mem_singleton.mp hq]
      exact hchild
  | forkFail hp hcode => exact meets_set hw (((hpok hp).of_running hcode).2.2 ha)
  | extClose hp hcode => exact meets_set hw (hext ha _ _ _ _ ((hpok hp).of_execd hcode))

/-- The steps under consideration, as a relation. -/
def Steps (lim : Limits) (faults exts : Prop) (w : World I α) (a : Act I) (w' : World I α) : Prop :=
  a.Allowed faults exts ∧ step lim w a = some w'

theorem run_of_foldlM {w' : World I α} {as : List (Act I)} (has : ∀ a ∈ as, a.Allowed faults exts)
    (h : as.foldlM (step lim) w = some w') :
    Run (Steps lim faults exts) w as w' := by
  induction as generalizing w with
  | nil =>
    cases h
    exact .nil _
  | cons a as ih =>
    rw [List.foldlM_cons] at h
    obtain ⟨w₁, hstep, hrest⟩ := Option.bind_eq_some_iff.mp h
    exact .cons ⟨has a List.mem_cons_self, hstep⟩
      (ih (fun b hb => has b (List.mem_cons_of_mem a hb)) hrest)

/-- A single process about to run a program, and empty pipes. -/
def start (r : I.Role) (p : Prog I α) (f : Fds I) : World I α := ⟨[⟨r, f, .running p⟩], fun _ => 0⟩

/-- Soundness, over whole runs. -/
theorem meets_run {r : I.Role} {p : Prog I α} {f : Fds I} {as : List (Act I)}
    (hfeed : ∀ r fd n f, A r (.feed fd (n + 1)) f → A r (.feed fd n) f)
    (hexec : ∀ r n f, A r (.exec n) f → E r n f)
    (hext : exts → ∀ r n f fd, E r n f → E r n (Function.update f fd none))
    (hp : wp (fdLocal lim faults) A r p Q f) (h : Run (Steps lim faults exts) (start r p f) as w) :
    ∀ p ∈ w.procs, p.Meets lim faults A E Q := by
  refine Run.invariant (I := fun w => ∀ p ∈ w.procs, p.Meets lim faults A E Q)
    (fun w a w' hw hstep => meets_sound hfeed hexec hext hstep.1 hw hstep.2) h ?_
  intro q hq
  rw [List.mem_singleton.mp hq]
  exact hp

end Sound

end Posix
end Lib
end RuShell
