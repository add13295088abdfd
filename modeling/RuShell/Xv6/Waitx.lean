import RuShell.Xv6.Select
import RuShell.Lib.Locks
import RuShell.Lib.Run

/-!
# `wait` and `waitx`

`kwait` and `kwaitx` of `xv6/kernel/proc.c`, one scan of the table at a time.  `kwaitx` is a
copy of `kwait` with three more values for the caller, so there are four places where it
can give up on a child that it has already chosen.  The locks are those of `Lib.Locks`;
`Step` has both functions in one step, without locks and without the memory of the caller.

What a copy to user space does is left open: `copyout` is any function of the memory, and
it may have written a part of the value when it fails.

## Main definitions

* `kwaitScan`, `kwaitxScan` — one scan, with what is decided.
* `copies` — all values for the caller, up to the first copy that fails.
* `Intact` — a zombie whose exit status and metrics are still there.

## Main results

* `kwaitx_eq_kwait` — without addresses for the metrics the two agree.
* `kwaitxScan_some`, `kwaitxScan_none` — what a scan decides.
* `zombie_step` — nobody but its parent touches a zombie.
* `kwaitx_agrees_and_fails_cleanly` — **both together**.
-/

namespace RuShell
namespace Xv6

open Lib

variable {M : Type} {pp : Proc}

/-! ### The scans -/

/-- The locks of the two functions. -/
inductive Lock
  /-- `wait_lock` -/
  | wait
  /-- `proc[j].lock` -/
  | slot (j : ℕ)
  deriving DecidableEq, Repr

/-- The addresses that `kwaitx` is given; `NULL` is 0. -/
structure Addrs where
  addr : ℕ
  wtimeAddr : ℕ := 0
  rtimeAddr : ℕ := 0
  respAddr : ℕ := 0
  deriving DecidableEq, Repr

/-- How the loop over the table is left. -/
inductive Scan (M : Type)
  /-- By `return pid`, with the child in slot `j` freed. -/
  | reaped (j : ℕ) (pid : ℤ) (mem : M)
  /-- By the `return -1` behind a copy. -/
  | failed (mem : M)
  /-- At the end of the table. -/
  | done (havekids : Bool)

/-- What one scan decides: the result, the process table and the caller's memory. -/
inductive Decision (M : Type)
  | returns (ret : ℤ) (k : Kernel) (mem : M)
  /-- The caller is registered to wait, and calls `sleep`. -/
  | sleeps (k : Kernel) (mem : M)

/-- The process table after the decision. -/
def Decision.kernel : Decision M → Kernel
  | returns _ k _ => k
  | sleeps k _ => k

/-- The response time as `kwaitx` computes it: an `int` from two `uint`s. -/
def resp (pp : Proc) : ℤ :=
  if pp.hasRun && pp.ctime ≤ pp.firstRunTime then asInt (pp.firstRunTime - pp.ctime) else 0

section Scans

variable (copyout : M → ℕ → ℤ → M × Bool)

/-- `addr != 0 && copyout(…) < 0`, negated; 0 stands for no address. -/
def copyIf (addr : ℕ) (value : ℤ) (mem : M) : M × Bool :=
  if addr ≠ 0 then copyout mem addr value else (mem, true)

/-- `release(&pp->lock); release(&wait_lock); return …;` -/
def leave (j : ℕ) (scan : Scan M) (c : Cpu Lock) : Except Panic (Scan M × Cpu Lock) := do
  let c ← release c (.slot j)
  let c ← release c .wait
  .ok (scan, c)

/-- What is done about a zombie in a slot, with its lock held. -/
abbrev ZombieBranch (M : Type) := ℕ → Proc → Cpu Lock → Except Panic (Scan M × Cpu Lock)

/-- The branch of `kwait` for a zombie. -/
def kwaitZombie (addr : ℕ) (mem : M) : ZombieBranch M := fun j pp c =>
  match copyIf copyout addr pp.xstate mem with
  | (mem, false) => leave j (.failed mem) c
  | (mem, true) => leave j (.reaped j pp.pid mem) c

/-- The branch of `kwaitx` for a zombie. -/
def kwaitxZombie (a : Addrs) (mem : M) : ZombieBranch M := fun j pp c =>
  match copyIf copyout a.addr pp.xstate mem with
  | (mem, false) => leave j (.failed mem) c
  | (mem, true) =>
    match copyIf copyout a.wtimeAddr pp.wtime mem with
    | (mem, false) => leave j (.failed mem) c
    | (mem, true) =>
      match copyIf copyout a.rtimeAddr pp.rtime mem with
      | (mem, false) => leave j (.failed mem) c
      | (mem, true) =>
        match copyIf copyout a.respAddr (resp pp) mem with
        | (mem, false) => leave j (.failed mem) c
        | (mem, true) => leave j (.reaped j pp.pid mem) c

/-- The loop of both functions over the table, from the slot `j` on, for the caller `i`;
`zombie` is the branch for a zombie. -/
def waitLoop (zombie : ZombieBranch M) (i : ℕ) :
    List Proc → ℕ → Bool → Cpu Lock → Except Panic (Scan M × Cpu Lock)
  | [], _, havekids, c => .ok (.done havekids, c)
  | pp :: procs, j, havekids, c =>
    if pp.parent = some i then do
      let c ← acquire c (.slot j)
      if pp.state = .zombie then zombie j pp c
      else
        let c ← release c (.slot j)
        waitLoop zombie i procs (j + 1) true c
    else waitLoop zombie i procs (j + 1) havekids c

/-- `killed(p)` and `sleep_prepare(p)` take the lock of the caller for a moment. -/
def touch (i : ℕ) (c : Cpu Lock) : Except Panic (Cpu Lock) := do
  let c ← acquire c (.slot i)
  release c (.slot i)

/-- The rest of the body of the outer loop, up to `sleep`. -/
def decideWait (k : Kernel) (i : ℕ) (mem : M) (scan : Scan M) (c : Cpu Lock) :
    Except Panic (Decision M × Cpu Lock) :=
  match scan with
  | .reaped j pid mem =>
    .ok (.returns pid (k.modify j fun pp => freeproc { pp with parent := none }) mem, c)
  | .failed mem => .ok (.returns (-1) k mem, c)
  | .done false => do
    let c ← release c .wait
    .ok (.returns (-1) k mem, c)
  | .done true => do
    let c ← touch i c
    if isKilled k i then
      let c ← release c .wait
      .ok (.returns (-1) k mem, c)
    else
      let c ← touch i c
      let c ← release c .wait
      .ok (.sleeps (sleepPrepare k i (.proc i)) mem, c)

/-- One scan of either function by the process in slot `i`. -/
def waitScan (zombie : ZombieBranch M) (k : Kernel) (i : ℕ) (mem : M) (c : Cpu Lock) :
    Except Panic (Decision M × Cpu Lock) := do
  let c ← acquire c .wait
  let (scan, c) ← waitLoop zombie i k.proc 0 false c
  decideWait k i mem scan c

/-- One scan of `kwait(addr)`. -/
def kwaitScan (k : Kernel) (i addr : ℕ) (mem : M) :
    Cpu Lock → Except Panic (Decision M × Cpu Lock) :=
  waitScan (kwaitZombie copyout addr mem) k i mem

/-- One scan of `kwaitx(addr, wtime_addr, rtime_addr, resp_addr)`. -/
def kwaitxScan (k : Kernel) (i : ℕ) (a : Addrs) (mem : M) :
    Cpu Lock → Except Panic (Decision M × Cpu Lock) :=
  waitScan (kwaitxZombie copyout a mem) k i mem

/-! ### The two functions against each other -/

theorem kwaitxZombie_eq (addr : ℕ) (mem : M) :
    kwaitxZombie copyout ⟨addr, 0, 0, 0⟩ mem = kwaitZombie copyout addr mem := by
  have hzero : ∀ (value : ℤ) (mem : M), copyIf copyout 0 value mem = (mem, true) :=
    fun _ _ => if_neg (not_not.mpr rfl)
  funext j pp c
  unfold kwaitxZombie kwaitZombie
  rcases copyIf copyout addr pp.xstate mem with ⟨mem', ok⟩
  cases ok with
  | false => rfl
  | true => simp only [hzero]

/-- **`waitx` without metrics is `wait`.** -/
theorem kwaitx_eq_kwait (k : Kernel) (i addr : ℕ) (mem : M) (c : Cpu Lock) :
    kwaitxScan copyout k i ⟨addr, 0, 0, 0⟩ mem c = kwaitScan copyout k i addr mem c := by
  rw [kwaitxScan, kwaitxZombie_eq, kwaitScan]

/-! ### What a scan decides -/

/-- The values for the caller, one after the other, up to the first copy that fails. -/
def copies (a : Addrs) (pp : Proc) (mem : M) : M × Bool :=
  [(a.addr, pp.xstate), (a.wtimeAddr, (pp.wtime : ℤ)), (a.rtimeAddr, (pp.rtime : ℤ)),
    (a.respAddr, resp pp)].foldl
    (fun r v => if r.2 then copyIf copyout v.1 v.2 r.1 else r) (mem, true)

/-- How the loop is left for the child in slot `j`. -/
def chosen (a : Addrs) (j : ℕ) (pp : Proc) (mem : M) : Scan M :=
  if (copies copyout a pp mem).2 then .reaped j pp.pid (copies copyout a pp mem).1
  else .failed (copies copyout a pp mem).1

theorem kwaitxZombie_copies (a : Addrs) (mem : M) (j : ℕ) (pp : Proc) (c : Cpu Lock) :
    kwaitxZombie copyout a mem j pp c = leave j (chosen copyout a j pp mem) c := by
  unfold kwaitxZombie chosen copies
  simp only [List.foldl_cons, List.foldl_nil, if_true]
  rcases copyIf copyout a.addr pp.xstate mem with ⟨m₁, ok₁⟩
  cases ok₁ with
  | false => rfl
  | true =>
    simp only [if_true]
    rcases copyIf copyout a.wtimeAddr pp.wtime m₁ with ⟨m₂, ok₂⟩
    cases ok₂ with
    | false => rfl
    | true =>
      simp only [if_true]
      rcases copyIf copyout a.rtimeAddr pp.rtime m₂ with ⟨m₃, ok₃⟩
      cases ok₃ with
      | false => rfl
      | true =>
        simp only [if_true]
        rcases copyIf copyout a.respAddr (resp pp) m₃ with ⟨m₄, ok₄⟩
        cases ok₄ <;> rfl

/-! ### Locks -/

section Locks

variable {c : Cpu Lock} {i j : ℕ}

theorem leave_spec {scan : Scan M} (hc : c.Sound) (hheld : c.held = [.slot j, .wait]) :
    Returns (leave j scan c) fun r => r.1 = scan ∧ r.2.Sound ∧ r.2.held = [] := by
  have hslot : Lock.slot j ∈ c.held := hheld ▸ List.mem_cons_self
  refine (release_spec hc hslot).bind fun c₁ hc₁ => ?_
  obtain ⟨hsound₁, hheld₁, -⟩ := hc₁
  rw [hheld, List.erase_cons_head] at hheld₁
  refine (release_spec hsound₁ (hheld₁ ▸ List.mem_cons_self)).bind fun c₂ hc₂ => ?_
  obtain ⟨hsound₂, hheld₂, -⟩ := hc₂
  rw [hheld₁, List.erase_cons_head] at hheld₂
  exact .ok ⟨rfl, hsound₂, hheld₂⟩

/-- The lock of a slot, taken for a moment beside `wait_lock`. -/
theorem touch_spec (hc : c.Sound) (hheld : c.held = [.wait]) :
    Returns (touch i c) fun c' => c'.Sound ∧ c'.held = [.wait] := by
  have hfree : Lock.slot i ∉ c.held := by simp [hheld]
  refine (acquire_spec hc hfree).bind fun c₁ hc₁ => ?_
  obtain ⟨hsound₁, hheld₁, -⟩ := hc₁
  refine (release_spec hsound₁ (hheld₁ ▸ List.mem_cons_self)).mono fun c₂ hc₂ => ⟨hc₂.1, ?_⟩
  rw [hc₂.2.1, hheld₁, List.erase_cons_head, hheld]

/-- The loop passes over a slot that is not a zombie of the caller. -/
theorem waitLoop_skip {zombie : ZombieBranch M}
    (hpp : ¬ (pp.parent = some i ∧ pp.state = .zombie)) (hc : c.Sound)
    (hheld : c.held = [.wait]) (procs : List Proc) (j : ℕ) (havekids : Bool) :
    ∃ c' : Cpu Lock, c'.Sound ∧ c'.held = [.wait] ∧
      waitLoop zombie i (pp :: procs) j havekids c =
        waitLoop zombie i procs (j + 1) (havekids || decide (pp.parent = some i)) c' := by
  rw [waitLoop]
  by_cases hparent : pp.parent = some i
  · have hstate : pp.state ≠ .zombie := fun hz => hpp ⟨hparent, hz⟩
    have hfree : Lock.slot j ∉ c.held := by simp [hheld]
    obtain ⟨c₁, hacq, hsound₁, hheld₁, -⟩ := acquire_spec hc hfree
    obtain ⟨c₂, hrel, hsound₂, hheld₂, -⟩ :=
      release_spec hsound₁ (hheld₁ ▸ List.mem_cons_self)
    rw [hheld₁, List.erase_cons_head, hheld] at hheld₂
    refine ⟨c₂, hsound₂, hheld₂, ?_⟩
    rw [if_pos hparent, hacq, decide_eq_true hparent, Bool.or_true]
    change (if pp.state = .zombie then _ else release c₁ (.slot j) >>= _) = _
    rw [if_neg hstate, hrel]
    rfl
  · refine ⟨c, hc, hheld, ?_⟩
    rw [if_neg hparent, decide_eq_false hparent, Bool.or_false]

/-- A table without a zombie of the caller. -/
theorem waitLoop_none {zombie : ZombieBranch M} {procs : List Proc} {havekids : Bool}
    (hnone : ∀ p ∈ procs, ¬ (p.parent = some i ∧ p.state = .zombie)) (hc : c.Sound)
    (hheld : c.held = [.wait]) :
    Returns (waitLoop zombie i procs j havekids c) fun r =>
      r.1 = .done (havekids || procs.any fun p => p.parent = some i) ∧ r.2.Sound ∧
        r.2.held = [.wait] := by
  induction procs generalizing j havekids c with
  | nil => exact .ok ⟨by rw [List.any_nil, Bool.or_false], hc, hheld⟩
  | cons pp procs ih =>
    obtain ⟨c', hsound, hheld', heq⟩ := waitLoop_skip (hnone pp List.mem_cons_self) hc hheld procs
      j havekids
    rw [heq, List.any_cons, ← Bool.or_assoc]
    exact ih (fun p hp => hnone p (List.mem_cons_of_mem _ hp)) hsound hheld'

/-- A table with one: it is chosen, and the loop is left without locks. -/
theorem kwaitxLoop_some {a : Addrs} {mem : M} {pre post : List Proc} {havekids : Bool}
    (hpre : ∀ p ∈ pre, ¬ (p.parent = some i ∧ p.state = .zombie))
    (hpp : pp.parent = some i ∧ pp.state = .zombie) (hc : c.Sound) (hheld : c.held = [.wait]) :
    Returns (waitLoop (kwaitxZombie copyout a mem) i (pre ++ pp :: post) j havekids c) fun r =>
      r.1 = chosen copyout a (j + pre.length) pp mem ∧ r.2.Sound ∧ r.2.held = [] := by
  induction pre generalizing j havekids c with
  | nil =>
    have hfree : Lock.slot j ∉ c.held := by simp [hheld]
    rw [List.nil_append, waitLoop, if_pos hpp.1]
    refine (acquire_spec hc hfree).bind fun c₁ hc₁ => ?_
    obtain ⟨hsound₁, hheld₁, -⟩ := hc₁
    rw [hheld] at hheld₁
    rw [if_pos hpp.2, kwaitxZombie_copies]
    exact leave_spec hsound₁ hheld₁
  | cons p pre ih =>
    obtain ⟨c', hsound, hheld', heq⟩ := waitLoop_skip (hpre p List.mem_cons_self) hc hheld
      (pre ++ pp :: post) j havekids
    rw [List.cons_append, heq, List.length_cons, Nat.add_comm pre.length 1, ← Nat.add_assoc]
    exact ih (fun q hq => hpre q (List.mem_cons_of_mem _ hq)) hsound hheld'

end Locks

/-! ### A whole scan -/

section Whole

variable {k : Kernel} {i j : ℕ} {c : Cpu Lock}

/-- The table around the first slot that passes a test. -/
theorem firstSlot_split {test : Proc → Bool} (h : k.firstSlot test = some j) :
    ∃ pre pp post, k.proc = pre ++ pp :: post ∧ pre.length = j ∧
      (∀ p ∈ pre, test p = false) ∧ test pp = true := by
  obtain ⟨hlt, hj⟩ : ∃ hlt : j < k.proc.length, k.proc.findIdx test = j := by
    simp only [Kernel.firstSlot] at h
    split at h
    · rename_i hlt
      injection h with h
      exact ⟨h ▸ hlt, h⟩
    · cases h
  refine ⟨k.proc.take j, k.proc.get ⟨j, hlt⟩, k.proc.drop (j + 1), ?_, ?_, ?_, ?_⟩
  · rw [List.get_eq_getElem, List.getElem_cons_drop, List.take_append_drop]
  · exact List.length_take_of_le hlt.le
  · intro p hp
    obtain ⟨n, hn, rfl⟩ := List.mem_iff_getElem.mp hp
    rw [List.length_take_of_le hlt.le] at hn
    rw [List.getElem_take]
    exact List.not_of_lt_findIdx (hj ▸ hn)
  · subst hj
    exact List.findIdx_getElem

theorem slot_of_split {pre post : List Proc} (hproc : k.proc = pre ++ pp :: post)
    (hlen : pre.length = j) : k.proc[j]? = some pp := by
  rw [hproc, ← hlen, List.getElem?_append_right le_rfl, Nat.sub_self]
  rfl

theorem firstSlot_eq_none {test : Proc → Bool} (h : k.firstSlot test = none) :
    ∀ p ∈ k.proc, test p = false := by
  simp only [Kernel.firstSlot] at h
  split at h
  · cases h
  · rename_i hge
    exact List.findIdx_eq_length.mp (le_antisymm List.findIdx_le_length (Nat.not_lt.mp hge))

/-- The table around the first zombie of the caller. -/
theorem zombieChild_split (h : zombieChild k i = some j) :
    ∃ pre pp post, k.proc = pre ++ pp :: post ∧ pre.length = j ∧
      (∀ p ∈ pre, ¬ (p.parent = some i ∧ p.state = .zombie)) ∧
      pp.parent = some i ∧ pp.state = .zombie := by
  obtain ⟨pre, pp, post, hproc, hlen, hpre, hpp⟩ := firstSlot_split h
  refine ⟨pre, pp, post, hproc, hlen, fun p hp hzombie => ?_, by simpa using hpp⟩
  have hfalse := hpre p hp
  simp [hzombie] at hfalse

theorem zombieChild_none (h : zombieChild k i = none) :
    ∀ p ∈ k.proc, ¬ (p.parent = some i ∧ p.state = .zombie) := by
  intro p hp hzombie
  have hfalse := firstSlot_eq_none h p hp
  simp [hzombie] at hfalse

/-- Taking `wait_lock` at the beginning. -/
theorem acquire_wait (hc : c.Sound) (hheld : c.held = []) :
    Returns (acquire c Lock.wait) fun c' => c'.Sound ∧ c'.held = [.wait] := by
  refine (acquire_spec hc (by rw [hheld]; exact List.not_mem_nil)).mono fun c' hc' => ?_
  exact ⟨hc'.1, by rw [hc'.2.1, hheld]⟩

/-- What becomes of the table when the child in slot `j` is collected. -/
def reap (k : Kernel) (j : ℕ) : Kernel := k.modify j fun pp => freeproc { pp with parent := none }

/-- **A scan that finds a zombie** frees it and returns its pid if all values could be
copied, and otherwise leaves everything as it is; it gives all locks back. -/
theorem kwaitxScan_some (hj : zombieChild k i = some j) (hpp : k.proc[j]? = some pp)
    (hc : c.Sound) (hheld : c.held = []) (a : Addrs) (mem : M) :
    Returns (kwaitxScan copyout k i a mem c) fun r =>
      r.1 = (if (copies copyout a pp mem).2 then
          .returns pp.pid (reap k j) (copies copyout a pp mem).1
        else .returns (-1) k (copies copyout a pp mem).1) ∧
      r.2.Sound ∧ r.2.held = [] := by
  obtain ⟨pre, q, post, hproc, hlen, hpre, hq⟩ := zombieChild_split hj
  have hqp : q = pp := Option.some.inj ((slot_of_split hproc hlen).symm.trans hpp)
  subst hqp
  refine (acquire_wait hc hheld).bind fun c₁ hc₁ => ?_
  rw [hproc]
  refine (kwaitxLoop_some copyout hpre hq hc₁.1 hc₁.2).bind fun r hr => ?_
  obtain ⟨scan, c₂⟩ := r
  obtain ⟨rfl, hsound, hheld'⟩ := hr
  rw [Nat.zero_add, hlen, chosen]
  cases hok : (copies copyout a q mem).2 with
  | true | false => exact .ok ⟨rfl, hsound, hheld'⟩

/-- **A scan that finds none** decides between `-1` and sleeping. -/
theorem kwaitxScan_none (hj : zombieChild k i = none) (hc : c.Sound) (hheld : c.held = [])
    (a : Addrs) (mem : M) :
    Returns (kwaitxScan copyout k i a mem c) fun r =>
      r.1 = (if (k.proc.any fun p => p.parent = some i) && !isKilled k i then
          .sleeps (sleepPrepare k i (.proc i)) mem
        else .returns (-1) k mem) ∧
      r.2.Sound ∧ r.2.held = [] := by
  have hwait : ∀ {c : Cpu Lock}, c.Sound → c.held = [.wait] →
      Returns (release c Lock.wait) fun c' => c'.Sound ∧ c'.held = [] := by
    intro c hc hheld
    refine (release_spec hc (hheld ▸ List.mem_cons_self)).mono fun c' hc' => ⟨hc'.1, ?_⟩
    rw [hc'.2.1, hheld, List.erase_cons_head]
  refine (acquire_wait hc hheld).bind fun c₁ hc₁ => ?_
  refine (waitLoop_none (zombieChild_none hj) hc₁.1 hc₁.2).bind fun r hr => ?_
  obtain ⟨scan, c₂⟩ := r
  obtain ⟨rfl, hsound, hheld'⟩ := hr
  rw [Bool.false_or]
  cases k.proc.any fun p => decide (p.parent = some i) with
  | false => exact (hwait hsound hheld').bind fun c₃ hc₃ => .ok ⟨rfl, hc₃⟩
  | true =>
    refine (touch_spec hsound hheld').bind fun c₃ hc₃ => ?_
    cases hkill : isKilled k i with
    | true => exact (hwait hc₃.1 hc₃.2).bind fun c₄ hc₄ => .ok ⟨rfl, hc₄⟩
    | false =>
      refine (touch_spec hc₃.1 hc₃.2).bind fun c₄ hc₄ => ?_
      exact (hwait hc₄.1 hc₄.2).bind fun c₅ hc₅ => .ok ⟨rfl, hc₅⟩

/-- **The step of `Step` is what a scan decides**, for some outcome of its copies. -/
theorem kwaitxScan_refines (hc : c.Sound) (hheld : c.held = []) (a : Addrs) (mem : M) :
    ∃ copied, Returns (kwaitxScan copyout k i a mem c) fun r => r.1.kernel = kwait k i copied := by
  cases hj : zombieChild k i with
  | none =>
    refine ⟨true, (kwaitxScan_none copyout hj hc hheld a mem).mono fun r hr => ?_⟩
    rw [hr.1, kwait, hj]
    simp only
    split <;> rfl
  | some j =>
    obtain ⟨pre, pp, post, hproc, hlen, -, -⟩ := zombieChild_split hj
    have hpp : k.proc[j]? = some pp := slot_of_split hproc hlen
    refine ⟨(copies copyout a pp mem).2,
      (kwaitxScan_some copyout hj hpp hc hheld a mem).mono fun r hr => ?_⟩
    rw [hr.1, kwait, hj]
    simp only
    split <;> rfl

end Whole

end Scans

/-! ### Zombies are kept -/

section Keeping

variable {pol : Policy} {k k' : Kernel} {e : Event} {i j : ℕ} {p p' q : Proc}

/-- The step by which the process in slot `i` lets go of its child in slot `j`: it exits,
or it collects it. -/
def LetsGo (k : Kernel) (e : Event) (i j : ℕ) : Prop :=
  k.myproc = some i ∧ ((∃ status, e = .kexit status) ∨ e = .kwait true ∧ zombieChild k i = some j)

/-- A zombie that still has what its parent will ask for. -/
structure Intact (p p' : Proc) : Prop where
  state : p'.state = .zombie
  parent : p'.parent = p.parent
  pid : p'.pid = p.pid
  xstate : p'.xstate = p.xstate
  wtime : p'.wtime = p.wtime
  rtime : p'.rtime = p.rtime
  ctime : p'.ctime = p.ctime
  firstRunTime : p'.firstRunTime = p.firstRunTime
  hasRun : p'.hasRun = p.hasRun

theorem Intact.trans (h : Intact p p') (h' : Intact p' q) : Intact p q :=
  ⟨h'.state, h'.parent.trans h.parent, h'.pid.trans h.pid, h'.xstate.trans h.xstate,
    h'.wtime.trans h.wtime, h'.rtime.trans h.rtime, h'.ctime.trans h.ctime,
    h'.firstRunTime.trans h.firstRunTime, h'.hasRun.trans h.hasRun⟩

theorem intact_refl (hz : p.state = .zombie) : Intact p p :=
  ⟨hz, rfl, rfl, rfl, rfl, rfl, rfl, rfl, rfl⟩

/-- Ticks are not charged to a zombie. -/
theorem intact_tickSlot (pol : Policy) (ticks : ℕ) (hz : p.state = .zombie) :
    Intact p (tickSlot pol ticks p) := by
  obtain ⟨ch, h | ⟨hs, -⟩⟩ := wakeupSlot_cases pol ticks .ticks p
  · unfold tickSlot
    rw [h]
    simp only [updateProcTimeSlot, hz]
    split
    · rw [boostSlot, if_neg (by exact ProcState.noConfusion)]
      exact ⟨rfl, rfl, rfl, rfl, rfl, rfl, rfl, rfl, rfl⟩
    · exact ⟨rfl, rfl, rfl, rfl, rfl, rfl, rfl, rfl, rfl⟩
  · rw [hz] at hs
    cases hs

/-- **Nobody but its parent touches a zombie.** -/
theorem zombie_step (h : step pol k e = some k') (hown : Owned k) (hp : k.proc[j]? = some p)
    (hz : p.state = .zombie) (hpar : p.parent = some i) (hcalm : ¬ LetsGo k e i j) :
    ∃ p', k'.proc[j]? = some p' ∧ Intact p p' := by
  have hcpu : k.myproc ≠ some j := by
    intro hj
    have hrun := (hown j p hp).mpr hj
    rw [hz] at hrun
    cases hrun
  obtain ⟨p', hp', hslot⟩ := step_slot h hp
  refine ⟨p', hp', ?_⟩
  cases hslot with
  | kept _ _ => exact intact_refl hz
  | dispatched start _ _ hsel _ =>
    have hrun := runnable_of_select hsel hp
    rw [hz] at hrun
    cases hrun
  | ticked _ _ _ => exact intact_tickSlot pol _ hz
  | tickedKilled _ hk _ _ | tickedOn _ _ hk _ _ _ _ | demoted _ _ hk _ _ _ _ _
  | preempted _ _ hk _ _ _ _ _ _ | rotated _ _ hk _ _ _ => exact absurd (myproc_of_running hk) hcpu
  | notified q cs _ _ hkeep =>
    -- its parent does not exit
    have hq : q = p.parent := by
      by_contra hne
      obtain ⟨hexit, hi⟩ := hkeep hne
      exact hcalm ⟨hi.trans hpar, .inl hexit⟩
    obtain ⟨ch, heq | ⟨hs, -⟩⟩ := notify_cases pol k.ticks cs { p with parent := q }
    · rw [heq]
      exact ⟨hz, hq, rfl, rfl, rfl, rfl, rfl, rfl, rfl⟩
    · change p.state = .sleeping at hs
      rw [hz] at hs
      cases hs
  | prepared c _ hj _ | slept _ hj _ _ => exact absurd hj hcpu
  | allocated l _ hu _ | refused _ hu _ | readied _ hu _ =>
    rw [hz] at hu
    cases hu
  | exited q cs status _ hj _ => exact absurd hj hcpu
  | reaped _ _ _ hby =>
    obtain ⟨l, he, hl, hchild⟩ := hby
    have hown' := firstSlot_spec hchild hp
    simp only [hpar, Bool.and_eq_true, decide_eq_true_eq, Option.some.injEq] at hown'
    obtain ⟨rfl, -⟩ := hown'
    exact absurd ⟨hl, .inr ⟨he, hchild⟩⟩ hcalm
  | targeted _ _ =>
    have hs : p.state ≠ .sleeping := by
      rw [hz]
      decide
    simp only [kkillSlot, hs, if_false]
    exact ⟨hz, rfl, rfl, rfl, rfl, rfl, rfl, rfl, rfl⟩
  | faulted _ hj _ => exact absurd hj hcpu

/-- The steps in which the parent does not let go. -/
def Holding (pol : Policy) (i j : ℕ) (k : Kernel) (e : Event) (k' : Kernel) : Prop :=
  step pol k e = some k' ∧ ¬ LetsGo k e i j

/-- The same for a whole run. -/
theorem zombie_run {es : List Event} (h : Run (Holding pol i j) k es k') (hown : Owned k)
    (hp : k.proc[j]? = some p) (hz : p.state = .zombie) (hpar : p.parent = some i) :
    ∃ p', k'.proc[j]? = some p' ∧ Intact p p' := by
  have hinv : Owned k' ∧ ∃ p', k'.proc[j]? = some p' ∧ Intact p p' := by
    refine h.invariant (I := fun k => Owned k ∧ ∃ p', k.proc[j]? = some p' ∧ Intact p p') ?_
      ⟨hown, p, hp, intact_refl hz⟩
    rintro k₁ e k₂ ⟨hown₁, p₁, hp₁, hintact⟩ ⟨hstep, hcalm⟩
    obtain ⟨p₂, hp₂, hintact₂⟩ := zombie_step hstep hown₁ hp₁ hintact.state
      (hintact.parent.trans hpar) hcalm
    exact ⟨step_owned hstep hown₁, p₂, hp₂, hintact.trans hintact₂⟩
  exact hinv.2

/-- What the caller is told does not depend on anything else. -/
theorem copies_of_intact (copyout : M → ℕ → ℤ → M × Bool) (h : Intact p p') (a : Addrs) (mem : M) :
    copies copyout a p' mem = copies copyout a p mem := by
  unfold copies resp
  rw [h.xstate, h.wtime, h.rtime, h.hasRun, h.ctime, h.firstRunTime]

end Keeping

/-! ### Coming back for a child -/

section Later

variable {k : Kernel} {i j : ℕ} {p : Proc}

/-- The table after the parent has collected up to `n` of its children. -/
def collect (k : Kernel) (i : ℕ) : ℕ → Kernel
  | 0 => k
  | n + 1 =>
    match zombieChild k i with
    | some m => collect (reap k m) i n
    | none => k

/-- The first zombie of the parent is no later than any other. -/
theorem zombieChild_le (hp : k.proc[j]? = some p) (hz : p.state = .zombie)
    (hpar : p.parent = some i) : ∃ m, zombieChild k i = some m ∧ m ≤ j := by
  cases hm : zombieChild k i with
  | none => exact absurd ⟨hpar, hz⟩ (zombieChild_none hm p (List.mem_of_getElem? hp))
  | some m =>
    refine ⟨m, rfl, Nat.not_lt.mp fun hlt => ?_⟩
    obtain ⟨pre, pp, post, hproc, hlen, hpre, -⟩ := zombieChild_split hm
    rw [hproc, List.getElem?_append_left (hlen ▸ hlt)] at hp
    exact hpre p (List.mem_of_getElem? hp) ⟨hpar, hz⟩

/-- What is left after the first zombie lies behind it. -/
theorem lt_zombieChild_reap {m m' : ℕ} (hm : zombieChild k i = some m)
    (hm' : zombieChild (reap k m) i = some m') : m < m' := by
  obtain ⟨pre, pp, post, hproc, hlen, hpre, -⟩ := zombieChild_split hm
  obtain ⟨pre', pp', post', hproc', hlen', -, hpp'⟩ := zombieChild_split hm'
  have hslot' : (reap k m).proc[m']? = some pp' := slot_of_split hproc' hlen'
  have hslot : k.proc[m]? = some pp := slot_of_split hproc hlen
  by_contra hle
  rcases Nat.lt_or_eq_of_le (Nat.not_lt.mp hle) with hlt | heq
  · -- before it the table is as it was
    have hmem : pp' ∈ pre := by
      have hold : pre[m']? = some pp' := by
        rw [← hslot', reap, Kernel.modify, List.getElem?_modify_ne _ _ hlt.ne', hproc,
          List.getElem?_append_left (hlen ▸ hlt)]
      exact List.mem_of_getElem? hold
    exact hpre pp' hmem hpp'
  · subst heq
    rw [reap, Kernel.slot_modify_self _ hslot] at hslot'
    obtain rfl := Option.some.inj hslot'
    cases hpp'.1

/-- Children are collected in the order of their slots, so it comes to each of them. -/
theorem collect_reaches (hp : k.proc[j]? = some p) (hz : p.state = .zombie)
    (hpar : p.parent = some i) :
    ∃ n ≤ j, zombieChild (collect k i n) i = some j ∧ (collect k i n).proc[j]? = some p := by
  -- `d` slots are left after those that are known to hold no zombie of the parent
  suffices hleft : ∀ (d : ℕ) (k : Kernel), k.proc[j]? = some p → d ≤ j →
      (∀ m, zombieChild k i = some m → j ≤ m + d) →
      ∃ n ≤ d, zombieChild (collect k i n) i = some j ∧ (collect k i n).proc[j]? = some p from
    hleft j k hp le_rfl fun m _ => Nat.le_add_left j m
  intro d
  induction d with
  | zero =>
    intro k hp _ hfirst
    obtain ⟨m, hm, hle⟩ := zombieChild_le hp hz hpar
    have hmj : m = j := le_antisymm hle (hfirst m hm)
    exact ⟨0, le_rfl, hmj ▸ hm, hp⟩
  | succ d ih =>
    intro k hp hd hfirst
    obtain ⟨m, hm, hle⟩ := zombieChild_le hp hz hpar
    by_cases hmj : m = j
    · exact ⟨0, Nat.zero_le _, hmj ▸ hm, hp⟩
    have hpreap : (reap k m).proc[j]? = some p := Kernel.slot_modify_ne _ hp hmj
    obtain ⟨n, hn, hreach⟩ := ih (reap k m) hpreap (by omega) fun m' hm' => by
      have hlt : m < m' := lt_zombieChild_reap hm hm'
      have := hfirst m hm
      omega
    refine ⟨n + 1, by omega, ?_⟩
    rw [collect, hm]
    exact hreach

end Later

/-! ### The main theorem -/

section Main

variable (copyout : M → ℕ → ℤ → M × Bool)

/-- If all copies succeed, the scan of process `i` returns the values of `pp` and frees the
slot `j`. -/
def Answers (k : Kernel) (i j : ℕ) (pp : Proc) : Prop :=
  ∀ (a : Addrs) (mem : M) (c : Cpu Lock), c.Sound → c.held = [] →
    (copies copyout a pp mem).2 = true →
    Returns (kwaitxScan copyout k i a mem c) fun r =>
      r.1 = .returns pp.pid (reap k j) (copies copyout a pp mem).1 ∧ r.2.Sound ∧ r.2.held = []

theorem answers_of_zombieChild {k : Kernel} {i j : ℕ} {pp' : Proc}
    (hj : zombieChild k i = some j) (hpp' : k.proc[j]? = some pp') (hintact : Intact pp pp') :
    Answers copyout k i j pp := by
  intro a mem c hc hheld hok
  have hsame := copies_of_intact copyout hintact a mem
  refine (kwaitxScan_some copyout hj hpp' hc hheld a mem).mono fun r hr => ?_
  rw [hsame, if_pos hok, hintact.pid] at hr
  exact hr

/-- **`waitx` agrees with `wait` and fails atomically.**  Without addresses for the metrics
the scans are the same in everything.  When a copy for a chosen child fails, the scan
returns -1 with the table as it was and no lock held; an immediate retry returns that
child, and in every later state of the kernel, as long as the parent has neither exited nor
collected it, the child is intact and the parent gets its values after at most as many
other children as there are slots before it. -/
theorem kwaitx_agrees_and_fails_cleanly :
    (∀ k i addr mem c,
      kwaitxScan copyout k i ⟨addr, 0, 0, 0⟩ mem c = kwaitScan copyout k i addr mem c) ∧
    ∀ (k : Kernel) (i j : ℕ) (pp : Proc) (a : Addrs) (mem : M) (c : Cpu Lock),
      zombieChild k i = some j → k.proc[j]? = some pp → c.Sound → c.held = [] →
      (copies copyout a pp mem).2 = false →
      Returns (kwaitxScan copyout k i a mem c) (fun r =>
        r.1 = .returns (-1) k (copies copyout a pp mem).1 ∧ r.2.Sound ∧ r.2.held = []) ∧
      pp.parent = some i ∧ Answers copyout k i j pp ∧
      ∀ pol es k', Owned k → Run (Holding pol i j) k es k' →
        ∃ pp', k'.proc[j]? = some pp' ∧ Intact pp pp' ∧
          ∃ n ≤ j, Answers copyout (collect k' i n) i j pp := by
  refine ⟨kwaitx_eq_kwait copyout, ?_⟩
  intro k i j pp a mem c hj hpp hc hheld hfail
  have hown := firstSlot_spec hj hpp
  obtain ⟨hpar, hz⟩ : pp.parent = some i ∧ pp.state = .zombie := by simpa using hown
  refine ⟨?_, hpar, answers_of_zombieChild copyout hj hpp (intact_refl hz), ?_⟩
  · refine (kwaitxScan_some copyout hj hpp hc hheld a mem).mono fun r hr => ?_
    rw [hfail] at hr
    exact hr
  · intro pol es k' hown hrun
    obtain ⟨pp', hpp', hintact⟩ := zombie_run hrun hown hpp hz hpar
    obtain ⟨n, hn, hfirst, hslot⟩ :=
      collect_reaches hpp' hintact.state (hintact.parent.trans hpar)
    exact ⟨pp', hpp', hintact, n, hn, answers_of_zombieChild copyout hfirst hslot hintact⟩

/-- A memory that cannot be written below address 8. -/
def copyHigh (mem : List (ℕ × ℤ)) (addr : ℕ) (value : ℤ) : List (ℕ × ℤ) × Bool :=
  if addr < 8 then (mem, false) else ((addr, value) :: mem, true)

/-- The process in slot 0 has a child that ran from tick 5 on and exited with status 3. -/
def parentAndZombie : Kernel where
  proc :=
    [{ pid := 1, state := .running },
      { pid := 2, state := .zombie, parent := some 0, xstate := 3, wtime := 1, rtime := 4,
        ctime := 4, firstRunTime := 5, hasRun := true }]
  ticks := 9
  nextpid := 3
  mode := .running 0

/-- The address for `wtime` is bad; with good ones the child is returned afterwards. -/
theorem kwaitx_agrees_and_fails_cleanly_badWtime :
    Returns (kwaitxScan copyHigh parentAndZombie 0 ⟨8, 4, 0, 0⟩ [] {}) (fun r =>
      r.1 = .returns (-1) parentAndZombie [(8, 3)] ∧ r.2.Sound ∧ r.2.held = []) ∧
    Returns (kwaitxScan copyHigh parentAndZombie 0 ⟨8, 16, 24, 32⟩ [] {}) (fun r =>
      r.1 = .returns 2 (reap parentAndZombie 1) [(32, 1), (24, 4), (16, 1), (8, 3)] ∧
        r.2.Sound ∧ r.2.held = []) := by
  have hidle : (({} : Cpu Lock)).Sound := ⟨rfl, fun h => absurd rfl h⟩
  obtain ⟨hfail, -, hretry, -⟩ := (kwaitx_agrees_and_fails_cleanly copyHigh).2 parentAndZombie 0 1
    _ ⟨8, 4, 0, 0⟩ [] {} (by decide) rfl hidle rfl (by decide)
  exact ⟨hfail, hretry ⟨8, 16, 24, 32⟩ [] {} hidle rfl (by decide)⟩

end Main

end Xv6
end RuShell
