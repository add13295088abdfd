import RuShell.Lib.PosixStuck

/-!
# A main process and its children

A proof rule for programs in which only the first process forks.  Then the pids are
known: the children are numbered in the order they were forked, and the main process
knows what each of them is for.  Assertions are made at every call, not only at those
that can wait, and each child has a budget of bytes that it may write to its pipe.

## Main definitions

* `View` — what the main process knows: its descriptors, and the roles of its children.
* `Pact` — what holds at every call of the main process and of the children.
* `kwp`, `mwp` — the proof rules for a child and for the main process.
* `Kept` — what holds of the world.

## Main results

* `mwp_bind`, `kwp_bind` — how programs compose.
* `Kept.step`, `kept_run` — the assertions hold in every state of every run.
* `Kept.canDie` — a child that never has to wait can run to its end.
* `Kept.returns` — the main process returns if the children that it waits for can.
-/

namespace RuShell
namespace Lib
namespace Posix

variable {I : Iface} {α β : Type}

/-- What the main process knows.  The pid of a child is its place in the list, counted
from one. -/
structure View (I : Iface) where
  fds : Fds I
  kids : List I.Role
  /-- It has waited for a child. -/
  late : Bool

/-- What holds at the calls, and what a child of a role may write. -/
structure Pact (I : Iface) where
  /-- At every call of the main process. -/
  main : Call I → View I → Prop
  /-- At every call of a child. -/
  kid : I.Role → Call I → Fds I → Prop
  /-- The pipe that a child writes to. -/
  pipe : I.Role → Option I.Tag
  /-- How many bytes it writes at most. -/
  bytes : I.Role → ℕ
  /-- The roles that children have. -/
  role : I.Role → Prop

/-- Is the call a `waitpid`? -/
def Call.isWait : Call I → Bool
  | .wait _ _ => true
  | _ => false

/-- The bytes a call writes. -/
def Call.size : Call I → ℕ
  | .feed _ n => n
  | _ => 0

section Rules

variable (lim : Limits) (faults : Prop) (P : Pact I)

/-- A child, with its table and with a budget of bytes: the assertion holds at every call,
it does not fork, and if it returns `Q` holds. -/
def kwp (r : I.Role) : Prog I α → (α → Fds I → ℕ → Prop) → Fds I → ℕ → Prop
  | .pure a, Q, f, b => Q a f b
  | .call c k, Q, f, b => P.kid r c f ∧ c.size ≤ b ∧
      ∀ x f', (fdLocal lim faults).next c f x f' → kwp r (k x) Q f' (b - c.size)
  | .fork _ _, _, _, _ => False

/-- The main process: the assertion holds at every call, each role is forked once and
before the first wait, the children keep to their part and do not return, and if the
process returns `Q` holds. -/
def mwp : Prog I α → (α → View I → Prop) → View I → Prop
  | .pure a, Q, v => Q a v
  | .call c k, Q, v => P.main c v ∧
      ∀ x f, (fdLocal lim faults).next c v.fds x f → mwp (k x) Q ⟨f, v.kids, v.late || c.isWait⟩
  | .fork r k, Q, v => r ∉ v.kids ∧ v.late = false ∧ P.role r ∧
      kwp lim faults P r (k .child) (fun _ _ _ => False) v.fds (P.bytes r) ∧
      mwp (k (.parent (v.kids.length + 1))) Q ⟨v.fds, v.kids ++ [r], v.late⟩ ∧
      (faults → mwp (k .failed) Q v)

variable {lim faults P} {r : I.Role} {f : Fds I} {b : ℕ} {v : View I} {p : Prog I α}

theorem kwp_mono {Q Q' : α → Fds I → ℕ → Prop}
    (hQ : ∀ a f b, Q a f b → Q' a f b) (h : kwp lim faults P r p Q f b) :
    kwp lim faults P r p Q' f b := by
  induction p generalizing f b with
  | pure a => exact hQ a f b h
  | call c k ih => exact ⟨h.1, h.2.1, fun x f' hx => ih x (h.2.2 x f' hx)⟩
  | fork r' k ih => exact h

theorem kwp_bind {q : α → Prog I β} {Q : β → Fds I → ℕ → Prop} :
    kwp lim faults P r (p >>= q) Q f b ↔
      kwp lim faults P r p (fun a f b => kwp lim faults P r (q a) Q f b) f b := by
  induction p generalizing f b with
  | pure a | fork r' k ih => exact Iff.rfl
  | call c k ih =>
    refine and_congr Iff.rfl (and_congr Iff.rfl (forall_congr' fun x => forall_congr' fun f' => ?_))
    exact imp_congr Iff.rfl (ih x)

theorem kwp_exit {n : ℕ} {Q : α → Fds I → ℕ → Prop} (hA : P.kid r (.exit n) f) :
    kwp lim faults P r (exit n) Q f b := ⟨hA, Nat.zero_le b, fun x => Empty.elim x⟩

/-- A call that leaves the table and writes nothing. -/
theorem kwp_call {c : Call I} {Q : c.Ret → Fds I → ℕ → Prop} (hA : P.kid r c f)
    (hsize : c.size = 0) (hQ : ∀ x f', (fdLocal lim faults).next c f x f' → Q x f' b) :
    kwp lim faults P r (.call c .pure) Q f b := by
  refine ⟨hA, by omega, fun x f' hx => ?_⟩
  have hb : b - c.size = b := by omega
  rw [hb]
  exact hQ x f' hx

/-- Programs compose; the children do not come back. -/
theorem mwp_bind {q : α → Prog I β} {Q : β → View I → Prop}
    (h : mwp lim faults P p (fun a v => mwp lim faults P (q a) Q v) v) :
    mwp lim faults P (p >>= q) Q v := by
  induction p generalizing v with
  | pure a => exact h
  | call c k ih => exact ⟨h.1, fun x f hx => ih x (h.2 x f hx)⟩
  | fork r k ih =>
    obtain ⟨hfresh, hlate, hrole, hchild, hparent, hfailed⟩ := h
    refine ⟨hfresh, hlate, hrole, ?_, ih _ hparent, fun hf => ih _ (hfailed hf)⟩
    exact kwp_bind.mpr (kwp_mono (fun _ _ _ hfalse => hfalse.elim) hchild)

theorem mwp_call {c : Call I} {Q : c.Ret → View I → Prop} :
    mwp lim faults P (.call c .pure) Q v ↔ P.main c v ∧
      ∀ x f, (fdLocal lim faults).next c v.fds x f → Q x ⟨f, v.kids, v.late || c.isWait⟩ :=
  Iff.rfl

/-- A call that is no wait. -/
theorem mwp_call_local {c : Call I} {Q : c.Ret → View I → Prop} (hwait : c.isWait = false)
    (hA : P.main c v)
    (hQ : ∀ x f, (fdLocal lim faults).next c v.fds x f → Q x ⟨f, v.kids, v.late⟩) :
    mwp lim faults P (.call c .pure) Q v := by
  refine mwp_call.mpr ⟨hA, fun x f hf => ?_⟩
  rw [hwait, Bool.or_false]
  exact hQ x f hf

theorem mwp_fork {k : Forked → Prog I α} {Q : α → View I → Prop}
    (hfresh : r ∉ v.kids) (hlate : v.late = false) (hrole : P.role r)
    (hchild : kwp lim faults P r (k .child) (fun _ _ _ => False) v.fds (P.bytes r))
    (hparent : mwp lim faults P (k (.parent (v.kids.length + 1))) Q
      ⟨v.fds, v.kids ++ [r], v.late⟩)
    (hfailed : mwp lim faults P (k .failed) Q v) :
    mwp lim faults P (fork r >>= k) Q v :=
  ⟨hfresh, hlate, hrole, hchild, hparent, fun _ => hfailed⟩

/-- Calls that are always fine, for a process whose table does not matter any more. -/
theorem mwp_of_calls {A : Call I → Prop} {Q : α → View I → Prop}
    (hA : ∀ c v, A c → P.main c v ∧ c.isWait = false) (hp : p.Calls A)
    (hQ : ∀ a f, Q a ⟨f, v.kids, v.late⟩) : mwp lim faults P p Q v := by
  induction p generalizing v with
  | pure a => exact hQ a v.fds
  | fork r k ih => exact hp.elim
  | call c k ih =>
    obtain ⟨hc, hwait⟩ := hA c v hp.1
    refine ⟨hc, fun x f _ => ih x (hp.2 x) fun a f' => ?_⟩
    rw [hwait, Bool.or_false]
    exact hQ a f'

end Rules

/-! ### The world -/

/-- The pact makes sense: a child writes only to its pipe, no executed program writes to
such a pipe, no two roles share one, and the main process creates pipes only before it
waits, and neither reads nor writes nor ends nor becomes another program. -/
structure Pact.Sound (P : Pact I) : Prop where
  less : ∀ {r fd n f}, P.kid r (.feed fd (n + 1)) f → P.kid r (.feed fd n) f
  own : ∀ {r fd n f t}, P.kid r (.feed fd n) f → f fd = some (.write t) → P.pipe r = some t
  exec : ∀ {r n f}, P.kid r (.exec n) f → ∀ fd, P.kid r (.exec n) (Function.update f fd none)
  produce : ∀ {r n f fd t}, P.kid r (.exec n) f → f fd = some (.write t) → ∀ r', P.pipe r' ≠ some t
  inj : ∀ {r r' t}, P.pipe r = some t → P.pipe r' = some t → r = r'
  early : ∀ {t v}, P.main (.pipe t) v → v.late = false
  noRead : ∀ {fd v}, ¬ P.main (.readByte fd) v
  noDrain : ∀ {fd v}, ¬ P.main (.drain fd) v
  noFeed : ∀ {fd n v}, ¬ P.main (.feed fd n) v
  noExec : ∀ {n v}, ¬ P.main (.exec n) v
  noExit : ∀ {n v}, ¬ P.main (.exit n) v

/-- What is known of a child that has the budget `b`. -/
def Process.Kid (lim : Limits) (faults : Prop) (P : Pact I) (p : Process I α) (b : ℕ) : Prop :=
  match p.code with
  | .running c => kwp lim faults P p.role c (fun _ _ _ => False) p.fds b
  | .execd n => P.kid p.role (.exec n) p.fds
  | .dead => p.fds = fun _ => none

/-- What is known of the world. -/
structure Kept (lim : Limits) (faults : Prop) (P : Pact I) (Q : α → View I → Prop)
    (w : World I α) (v : View I) : Prop where
  main : ∃ p c, w.procs[0]? = some p ∧ p.code = .running c ∧ p.fds = v.fds ∧
    mwp lim faults P c Q v
  roles : ∀ j, w.procs[j + 1]?.map (·.role) = v.kids[j]?
  kids : ∀ j p, w.procs[j + 1]? = some p → ∃ b, p.Kid lim faults P b ∧
    ∀ t, P.pipe p.role = some t → w.fill t + b ≤ P.bytes p.role
  empty : ∀ r t, P.pipe r = some t → r ∉ v.kids → w.fill t = 0
  nodup : v.kids.Nodup
  named : ∀ r ∈ v.kids, P.role r

/-- How many processes have the role. -/
def World.count [DecidableEq I.Role] (w : World I α) (r : I.Role) : ℕ :=
  w.procs.countP fun p => p.role = r

section Sound

variable {lim : Limits} {faults : Prop} {P : Pact I} {Q : α → View I → Prop} {w : World I α}
  {v : View I} {as : List (Act I)} {fill : I.Tag → ℕ} {q : Process I α} {j b : ℕ} {c : Prog I α}

variable {p : Process I α}

theorem Process.Kid.of_running (h : p.Kid lim faults P b)
    (hc : p.code = .running c) :
    kwp lim faults P p.role c (fun _ _ _ => False) p.fds b := by
  unfold Process.Kid at h
  rwa [hc] at h

theorem Process.Kid.of_execd {n : I.Name} (h : p.Kid lim faults P b)
    (hc : p.code = .execd n) : P.kid p.role (.exec n) p.fds := by
  unfold Process.Kid at h
  rwa [hc] at h

/-- The roles of all processes. -/
theorem Kept.map_role (h : Kept lim faults P Q w v) (hp : w.procs[0]? = some p) :
    w.procs.map (·.role) = p.role :: v.kids := by
  refine List.ext_getElem? fun i => ?_
  rw [List.getElem?_map]
  cases i with
  | zero => rw [hp]; rfl
  | succ j => exact h.roles j

theorem Kept.length (h : Kept lim faults P Q w v) : w.procs.length = v.kids.length + 1 := by
  obtain ⟨p, c, hp, -⟩ := h.main
  have hlen := congrArg List.length (h.map_role hp)
  rwa [List.length_map] at hlen

/-- No two processes have the same role, if the main process has none of a child. -/
theorem Kept.nodup_roles (h : Kept lim faults P Q w v) (hp : w.procs[0]? = some p)
    (hmain : ¬ P.role p.role) : (w.procs.map (·.role)).Nodup := by
  rw [h.map_role hp]
  exact List.nodup_cons.mpr ⟨fun hmem => hmain (h.named _ hmem), h.nodup⟩

theorem World.count_le_one [DecidableEq I.Role] (h : (w.procs.map (·.role)).Nodup) (r : I.Role) :
    w.count r ≤ 1 := by
  have hcount := List.nodup_iff_count_le_one.mp h r
  rwa [List.count, List.countP_map] at hcount

/-- The role of a child. -/
theorem Kept.role (h : Kept lim faults P Q w v) (hp : w.procs[j + 1]? = some p) :
    v.kids[j]? = some p.role := by
  have hrole := h.roles j
  rw [hp] at hrole
  exact hrole.symm

/-- Two children of one role are the same. -/
theorem Kept.unique (h : Kept lim faults P Q w v) {i : ℕ}
    (hp : w.procs[i + 1]? = some p) (hq : w.procs[j + 1]? = some q) (hrole : p.role = q.role) :
    i = j := by
  have hi := h.role hp
  have hj := h.role hq
  rw [hrole, ← hj] at hi
  refine (List.getElem?_inj ?_ h.nodup).mp hi
  by_contra hge
  rw [List.getElem?_eq_none (by omega), hj] at hi
  cases hi

/-- A child makes a step: it keeps its role, and only its own pipe gets fuller. -/
theorem Kept.setKid (hP : P.Sound) (h : Kept lim faults P Q w v)
    (hp : w.procs[j + 1]? = some p) (hrole : q.role = p.role)
    (hq : q.Kid lim faults P b) (hfill : ∀ t, P.pipe p.role ≠ some t → fill t ≤ w.fill t)
    (hbytes : ∀ t, P.pipe p.role = some t → fill t + b ≤ P.bytes p.role) :
    Kept lim faults P Q ⟨w.procs.set (j + 1) q, fill⟩ v := by
  have hlt := (List.getElem?_eq_some_iff.mp hp).1
  have hother : ∀ {r' t}, P.pipe r' = some t → r' ≠ p.role → fill t ≤ w.fill t := by
    intro r' t ht hne
    exact hfill t fun ht' => hne (hP.inj ht ht')
  refine ⟨?_, fun i => ?_, fun i p' hp' => ?_, fun r' t ht hnot => ?_, h.nodup,
    h.named⟩
  · obtain ⟨p₀, c, hp₀, hmain⟩ := h.main
    exact ⟨p₀, c, (List.getElem?_set_ne (Nat.succ_ne_zero j)).trans hp₀, hmain⟩
  · by_cases hij : i = j
    · subst hij
      change Option.map _ (w.procs.set (i + 1) q)[i + 1]? = _
      rw [List.getElem?_set_self hlt, h.role hp, ← hrole]
      rfl
    · change Option.map _ (w.procs.set (j + 1) q)[i + 1]? = _
      rw [List.getElem?_set_ne (by omega)]
      exact h.roles i
  · by_cases hij : i = j
    · subst hij
      change (w.procs.set (i + 1) q)[i + 1]? = _ at hp'
      rw [List.getElem?_set_self hlt] at hp'
      cases hp'
      refine ⟨b, hq, fun t ht => ?_⟩
      rw [hrole] at ht ⊢
      exact hbytes t ht
    · change (w.procs.set (j + 1) q)[i + 1]? = _ at hp'
      rw [List.getElem?_set_ne (by omega)] at hp'
      obtain ⟨b', hkid, hb'⟩ := h.kids i p' hp'
      refine ⟨b', hkid, fun t ht => ?_⟩
      have hne : p'.role ≠ p.role := fun heq => hij (h.unique hp' hp heq)
      exact le_trans (Nat.add_le_add_right (hother ht hne) b') (hb' t ht)
  · have hne : r' ≠ p.role := by
      rintro rfl
      exact hnot (List.mem_of_getElem? (h.role hp))
    exact Nat.eq_zero_of_le_zero ((h.empty r' t ht hnot) ▸ hother ht hne)

/-- The main process makes a step that is no fork. -/
theorem Kept.setMain (h : Kept lim faults P Q w v)
    {late : Bool} (hcode : q.code = .running c)
    (hq : mwp lim faults P c Q ⟨q.fds, v.kids, late⟩) (hfill : ∀ t, fill t ≤ w.fill t) :
    Kept lim faults P Q ⟨w.procs.set 0 q, fill⟩ ⟨q.fds, v.kids, late⟩ := by
  obtain ⟨p, -, hp, -⟩ := h.main
  have hne : ∀ j, (w.procs.set 0 q)[j + 1]? = w.procs[j + 1]? := fun j =>
    List.getElem?_set_ne (Nat.succ_ne_zero j).symm
  refine ⟨⟨q, c, List.getElem?_set_self (List.getElem?_eq_some_iff.mp hp).1, hcode, rfl, hq⟩,
    fun j => ?_, fun j p' hp' => ?_, fun r t ht hnot => ?_, h.nodup, h.named⟩
  · change Option.map _ (w.procs.set 0 q)[j + 1]? = _
    rw [hne]
    exact h.roles j
  · change (w.procs.set 0 q)[j + 1]? = _ at hp'
    rw [hne] at hp'
    obtain ⟨b, hkid, hb⟩ := h.kids j p' hp'
    exact ⟨b, hkid, fun t ht => le_trans (Nat.add_le_add_right (hfill t) b) (hb t ht)⟩
  · exact Nat.eq_zero_of_le_zero ((h.empty r t ht hnot) ▸ hfill t)

/-- The main process forks. -/
theorem Kept.fork (h : Kept lim faults P Q w v) {r : I.Role} {k : Forked → Prog I α}
    (hp : w.procs[0]? = some p) (hfds : p.fds = v.fds) (hk : mwp lim faults P (.fork r k) Q v) :
    Kept lim faults P Q ⟨w.procs.set 0 { p with code := .running (k (.parent w.procs.length)) } ++
      [⟨r, p.fds, .running (k .child)⟩], w.fill⟩
      ⟨v.fds, v.kids ++ [r], v.late⟩ := by
  obtain ⟨hfresh, -, hrole, hchild, hparent, -⟩ := hk
  have hlen := h.length
  have hset : (w.procs.set 0 { p with code := .running (k (.parent w.procs.length)) }).length =
      w.procs.length := List.length_set
  have hold : ∀ {j}, j < v.kids.length →
      (w.procs.set 0 { p with code := .running (k (.parent w.procs.length)) } ++
        [⟨r, p.fds, .running (k .child)⟩])[j + 1]? = w.procs[j + 1]? := by
    intro j hj
    rw [List.getElem?_append_left (by omega), List.getElem?_set_ne (Nat.succ_ne_zero j).symm]
  have hnew : (w.procs.set 0 { p with code := .running (k (.parent w.procs.length)) } ++
      [⟨r, p.fds, .running (k .child)⟩])[v.kids.length + 1]? =
        some ⟨r, p.fds, .running (k .child)⟩ := by
    rw [List.getElem?_append_right (by omega), hset, hlen, Nat.sub_self]
    rfl
  refine ⟨⟨{ p with code := .running (k (.parent w.procs.length)) }, _, ?_, rfl, hfds, ?_⟩,
    fun j => ?_, fun j p' hp' => ?_, fun r' t ht hnot => ?_, ?_, fun r' hr' => ?_⟩
  · change (_ ++ _)[0]? = _
    rw [List.getElem?_append_left (by omega),
      List.getElem?_set_self (List.getElem?_eq_some_iff.mp hp).1]
  · rw [hlen]
    exact hparent
  · change Option.map _ (_ ++ _)[j + 1]? = (v.kids ++ [r])[j]?
    rcases Nat.lt_trichotomy j v.kids.length with hj | rfl | hj
    · rw [hold hj, List.getElem?_append_left hj]
      exact h.roles j
    · rw [hnew, List.getElem?_append_right (le_refl _), Nat.sub_self]
      rfl
    · rw [List.getElem?_eq_none (by simp; omega), List.getElem?_eq_none (by simp; omega)]
      rfl
  · change (_ ++ _)[j + 1]? = _ at hp'
    rcases Nat.lt_trichotomy j v.kids.length with hj | rfl | hj
    · rw [hold hj] at hp'
      exact h.kids j p' hp'
    · rw [hnew] at hp'
      cases hp'
      refine ⟨P.bytes r, ?_, fun t ht => ?_⟩
      · rw [← hfds] at hchild
        exact hchild
      · rw [h.empty r t ht hfresh, Nat.zero_add]
    · rw [List.getElem?_eq_none (by simp; omega)] at hp'
      cases hp'
  · exact h.empty r' t ht fun hmem => hnot (List.mem_append_left _ hmem)
  · refine List.nodup_append.mpr ⟨h.nodup, List.nodup_singleton r, fun a ha a' ha' heq => ?_⟩
    rw [List.mem_singleton.mp ha'] at heq
    exact hfresh (heq ▸ ha)
  · rcases List.mem_append.mp hr' with hr' | hr'
    · exact h.named r' hr'
    · exact List.mem_singleton.mp hr' ▸ hrole

/-- What is known of the main process. -/
theorem Kept.main_spec (h : Kept lim faults P Q w v) (hp : w.procs[0]? = some p) :
    ∃ c, p.code = .running c ∧ p.fds = v.fds ∧ mwp lim faults P c Q v := by
  obtain ⟨p₀, c₀, hp₀, hmain⟩ := h.main
  rw [hp₀] at hp
  cases hp
  exact ⟨c₀, hmain⟩

theorem Kept.main_running (h : Kept lim faults P Q w v) (hp : w.procs[0]? = some p)
    (hcode : p.code = .running c) :
    p.fds = v.fds ∧ mwp lim faults P c Q v := by
  obtain ⟨c₀, hcode₀, hmain⟩ := h.main_spec hp
  rw [hcode₀] at hcode
  cases hcode
  exact hmain

/-- The main process is not replaced by another program. -/
theorem Kept.main_not_execd (h : Kept lim faults P Q w v) {n : I.Name} (hp : w.procs[0]? = some p) :
    p.code ≠ .execd n := by
  intro hcode
  obtain ⟨c₀, hcode₀, -⟩ := h.main_spec hp
  rw [hcode₀] at hcode
  cases hcode

/-- A child dies. -/
theorem Kept.killKid (hP : P.Sound) (h : Kept lim faults P Q w v)
    (hp : w.procs[j + 1]? = some p) :
    Kept lim faults P Q ⟨w.procs.set (j + 1) p.kill, w.fill⟩ v := by
  obtain ⟨b, -, hb⟩ := h.kids j p hp
  exact h.setKid hP hp rfl (b := b) rfl (fun _ _ => le_rfl) hb

/-- A child writes one byte: it has one byte less to write, and its pipe is the only one that
gets fuller. -/
theorem Kept.feedKid [DecidableEq I.Tag] (hP : P.Sound) (h : Kept lim faults P Q w v) {fd n : ℕ}
    {k : Unit → Prog I α} {t' : I.Tag} (hp : w.procs[j + 1]? = some p)
    (hcode : p.code = .running (.call (.feed fd (n + 1)) k)) (hfd : p.fds fd = some (.write t')) :
    Kept lim faults P Q ⟨w.procs.set (j + 1) { p with code := .running (.call (.feed fd n) k) },
      Function.update w.fill t' (w.fill t' + 1)⟩ v := by
  obtain ⟨b, hok, hb⟩ := h.kids j p hp
  obtain ⟨hA, hsize, hrest⟩ := hok.of_running hcode
  have hsize : n + 1 ≤ b := hsize
  have hown := hP.own hA hfd
  refine h.setKid hP hp rfl (b := b - 1) ⟨hP.less hA, ?_, fun x f' hx => ?_⟩ (fun t ht => ?_)
    fun t ht => ?_
  · show n ≤ b - 1
    omega
  · show kwp lim faults P p.role (k x) _ f' (b - 1 - n)
    have hleft : b - 1 - n = b - (n + 1) := by omega
    rw [hleft]
    exact hrest x f' hx
  · have hne : t ≠ t' := by
      rintro rfl
      exact ht hown
    exact le_of_eq (Function.update_of_ne hne _ _)
  · obtain rfl : t = t' := Option.some.inj (ht.symm.trans hown)
    show Function.update w.fill t (w.fill t + 1) t + (b - 1) ≤ _
    have := hb t ht
    rw [Function.update_self]
    omega

/-- No process changes, and no pipe of a child gets fuller. -/
theorem Kept.refill (h : Kept lim faults P Q w v)
    (hfill : ∀ r t, P.pipe r = some t → fill t ≤ w.fill t) :
    Kept lim faults P Q ⟨w.procs, fill⟩ v := by
  refine ⟨h.main, h.roles, fun j p hp => ?_, fun r t ht hnot => ?_, h.nodup, h.named⟩
  · obtain ⟨b, hok, hb⟩ := h.kids j p hp
    exact ⟨b, hok, fun t ht => le_trans (Nat.add_le_add_right (hfill _ t ht) b) (hb t ht)⟩
  · exact Nat.eq_zero_of_le_zero ((h.empty r t ht hnot) ▸ hfill r t ht)

/-- The main process alone, before it has done anything. -/
theorem Kept.start {r : I.Role} {p : Prog I α} {f : Fds I}
    (hp : mwp lim faults P p Q ⟨f, [], false⟩) :
    Kept lim faults P Q (Posix.start r p f) ⟨f, [], false⟩ :=
  ⟨⟨_, p, rfl, rfl, rfl, hp⟩, fun _ => rfl, fun _ _ hq => (by cases hq), fun _ _ _ _ => rfl,
    List.nodup_nil, nofun⟩

variable [DecidableEq I.Tag] [DecidableEq I.Name]

/-- **The pact is kept** by every step, and a step of a child does not change what the main
process knows. -/
theorem Kept.step (hP : P.Sound) (h : Kept lim faults P Q w v) {a : Act I} {w' : World I α}
    (ha : a.Allowed faults True) (hstep : step lim w a = some w') :
    ∃ v', Kept lim faults P Q w' v' ∧ (a.pid ≠ 0 → v' = v) := by
  cases step_move hstep with
  | @call pid o p c k x f fill hp hcode hnext hfill =>
    have ho : o = .fault → faults := by
      rintro rfl
      exact ha
    have hnext := hnext faults ho
    cases pid with
    | zero =>
      obtain ⟨hfds, hmain⟩ := h.main_running hp hcode
      rw [hfds] at hnext
      exact ⟨_, h.setMain (q := ⟨p.role, f, .running (k x)⟩) rfl (hmain.2 x f hnext) hfill,
        fun hpid => absurd rfl hpid⟩
    | succ j =>
      obtain ⟨b, hok, hb⟩ := h.kids j p hp
      obtain ⟨-, -, hrest⟩ := hok.of_running hcode
      refine ⟨v, h.setKid hP hp rfl (b := b - c.size) ?_ (fun t _ => hfill t) fun t ht => ?_,
        fun _ => rfl⟩
      · exact hrest x f hnext
      · have := hb t ht
        have := hfill t
        omega
  | @feed pid fd n p k t' hp hcode hfd =>
    cases pid with
    | zero => exact absurd (h.main_running hp hcode).2.1 hP.noFeed
    | succ j => exact ⟨v, h.feedKid hP hp hcode hfd, fun _ => rfl⟩
  | @drain pid fd p k fill hp hcode hfill =>
    exact ⟨v, h.refill fun _ t _ => hfill t, fun _ => rfl⟩
  | @exec pid p n k hp hcode =>
    cases pid with
    | zero => exact absurd (h.main_running hp hcode).2.1 hP.noExec
    | succ j =>
      obtain ⟨b, hok, hb⟩ := h.kids j p hp
      exact ⟨v, h.setKid hP hp rfl (b := b) (hok.of_running hcode).1 (fun _ _ => le_rfl) hb,
        fun _ => rfl⟩
  | @kill pid p c k hp hcode hc =>
    cases pid with
    | zero =>
      have hmain := (h.main_running hp hcode).2
      rcases hc with ⟨fd, n, rfl⟩ | ⟨n, rfl⟩
      · exact absurd hmain.1 hP.noFeed
      · exact absurd hmain.1 hP.noExit
    | succ j => exact ⟨v, h.killKid hP hp, fun _ => rfl⟩
  | @fork pid p r k hp hcode =>
    cases pid with
    | zero =>
      obtain ⟨hfds, hmain⟩ := h.main_running hp hcode
      exact ⟨_, h.fork hp hfds hmain, fun hpid => absurd rfl hpid⟩
    | succ j =>
      -- children do not fork
      obtain ⟨b, hok, -⟩ := h.kids j p hp
      exact absurd (hok.of_running hcode) id
  | @forkFail pid p r k hp hcode =>
    cases pid with
    | zero =>
      obtain ⟨hfds, hmain⟩ := h.main_running hp hcode
      have hfailed : mwp lim faults P (k .failed) Q ⟨p.fds, v.kids, v.late⟩ := by
        rw [hfds]
        exact hmain.2.2.2.2.2 ha
      exact ⟨_, h.setMain (q := ⟨p.role, p.fds, .running (k .failed)⟩) rfl hfailed
        fun _ => le_rfl, fun hpid => absurd rfl hpid⟩
    | succ j =>
      obtain ⟨b, hok, -⟩ := h.kids j p hp
      exact absurd (hok.of_running hcode) id
  | @extExit pid p n hp hcode =>
    cases pid with
    | zero => exact absurd hcode (h.main_not_execd hp)
    | succ j => exact ⟨v, h.killKid hP hp, fun _ => rfl⟩
  | @extClose pid fd p n hp hcode =>
    cases pid with
    | zero => exact absurd hcode (h.main_not_execd hp)
    | succ j =>
      obtain ⟨b, hok, hb⟩ := h.kids j p hp
      exact ⟨v, h.setKid hP hp rfl (b := b) (hP.exec (hok.of_execd hcode) fd)
        (fun _ _ => le_rfl) hb, fun _ => rfl⟩
  | @extConsume pid fd fill hfill => exact ⟨v, h.refill fun _ t _ => hfill t, fun _ => rfl⟩
  | @extProduce pid fd p n t' hp hcode hfd =>
    cases pid with
    | zero => exact absurd hcode (h.main_not_execd hp)
    | succ j =>
      -- what a program writes does not go to the pipe of a child
      obtain ⟨b, hok, -⟩ := h.kids j p hp
      have hno := hP.produce (hok.of_execd hcode) hfd
      refine ⟨v, h.refill fun r t ht => ?_, fun _ => rfl⟩
      have hne : t ≠ t' := by
        rintro rfl
        exact hno r ht
      exact le_of_eq (Function.update_of_ne hne _ _)

theorem kept_run (hP : P.Sound) {w' : World I α}
    (h : Run (Steps lim faults True) w as w') (hw : ∃ v, Kept lim faults P Q w v) :
    ∃ v, Kept lim faults P Q w' v :=
  Run.invariant (I := fun w => ∃ v, Kept lim faults P Q w v)
    (fun _ _ _ hw hstep => hw.elim fun _ hv => (hv.step hP hstep.1 hstep.2).imp fun _ => And.left)
    h hw

end Sound

/-! ### Getting to the end -/

section Ends

variable [DecidableEq I.Tag] [DecidableEq I.Name] {lim : Limits} {P : Pact I}
  {Q : α → View I → Prop} {w w' : World I α} {v : View I} {as : List (Act I)} {j : ℕ}

/-- The children run on their own. -/
theorem Kept.run_kids {faults exts : Prop} (hP : P.Sound) (h : Kept lim True P Q w v)
    (hrun : Run (Steps lim faults exts) w as w')
    (has : ∀ a ∈ as, a.pid ≠ 0) : Kept lim True P Q w' v := by
  induction hrun with
  | nil _ => exact h
  | cons hstep _ ih =>
    obtain ⟨v', hv', heq⟩ := h.step hP (allowed_true _) hstep.2
    rw [heq (has _ List.mem_cons_self)] at hv'
    exact ih hv' fun a ha => has a (List.mem_cons_of_mem _ ha)

variable {p : Process I α}

omit [DecidableEq I.Tag] [DecidableEq I.Name] in
/-- A child that has not become another program is at a call. -/
theorem Kept.kid_running (h : Kept lim True P Q w v) {j : ℕ} {prog : Prog I α}
    (hp : w.procs[j + 1]? = some p) (hcode : p.code = .running prog) :
    ∃ c k, prog = .call c k ∧ P.kid p.role c p.fds := by
  obtain ⟨b, hkid, -⟩ := h.kids j p hp
  have hkwp := hkid.of_running hcode
  cases prog with
  | pure a | fork r k => exact hkwp.elim
  | call c k => exact ⟨c, k, rfl, hkwp.1⟩

omit [DecidableEq I.Tag] [DecidableEq I.Name] in
/-- A child is dead, or another program, or at a call of its own program. -/
theorem Kept.kid_cases (h : Kept lim True P Q w v) {j : ℕ} (hp : w.procs[j + 1]? = some p) :
    (p.code = .dead ∧ p.fds = fun _ => none) ∨
    (∃ n, p.code = .execd n ∧ P.kid p.role (.exec n) p.fds) ∨
    ∃ c k, p.code = .running (.call c k) ∧ P.kid p.role c p.fds := by
  obtain ⟨b, hkid, -⟩ := h.kids j p hp
  cases hcode : p.code with
  | dead =>
    unfold Process.Kid at hkid
    rw [hcode] at hkid
    exact .inl ⟨rfl, hkid⟩
  | execd n => exact .inr (.inl ⟨n, rfl, hkid.of_execd hcode⟩)
  | running prog =>
    obtain ⟨c, k, rfl, hcall⟩ := h.kid_running hp hcode
    exact .inr (.inr ⟨c, k, rfl, hcall⟩)

omit [DecidableEq I.Tag] [DecidableEq I.Name] in
/-- A child at a call keeps to its budget. -/
theorem Kept.room (h : Kept lim True P Q w v) {j : ℕ} {c : Call I} {k : c.Ret → Prog I α}
    {t : I.Tag} (hp : w.procs[j + 1]? = some p) (hcode : p.code = .running (.call c k))
    (ht : P.pipe p.role = some t) :
    w.fill t + c.size ≤ P.bytes p.role := by
  obtain ⟨b, hkid, hb⟩ := h.kids j p hp
  exact le_trans (Nat.add_le_add_left (hkid.of_running hcode).2.1 _) (hb t ht)

/-- A child that does not have to wait as long as the others do nothing can run to its
end. -/
theorem Kept.canDie (hP : P.Sound) (h : Kept lim True P Q w v)
    (hp : w.procs[j + 1]? = some p) (halive : p.code ≠ .dead)
    (hexec : ∀ n f, ¬ P.kid p.role (.exec n) f)
    (hgoes : ∀ w' q c k, Kept lim True P Q w' v → (∀ i ≠ j + 1, w'.procs[i]? = w.procs[i]?) →
      w'.procs[j + 1]? = some q → q.role = p.role → q.code = .running (.call c k) →
      P.kid p.role c q.fds → Goes lim False w' q c) : CanDie lim False w (j + 1) := by
  have hrunning : ∃ c k, p.code = .running (.call c k) := by
    rcases h.kid_cases hp with ⟨hdead, -⟩ | ⟨n, -, hkid⟩ | ⟨c, k, hcode, -⟩
    · exact absurd hdead halive
    · exact absurd hkid (hexec n _)
    · exact ⟨c, k, hcode⟩
  obtain ⟨c, k, hcode⟩ := hrunning
  refine exists_run_dead (J := fun w' => Kept lim True P Q w' v ∧
    (∀ i ≠ j + 1, w'.procs[i]? = w.procs[i]?) ∧
    ∃ q, w'.procs[j + 1]? = some q ∧ q.role = p.role) ?_ ⟨h, fun _ _ => rfl, p, hp, rfl⟩ hp hcode
  refine ⟨?_, ?_, ?_, ?_⟩
  · rintro w₁ o w₂ ⟨h₁, hsame, q, hq, hrole⟩ hstep
    obtain ⟨v', h₂, heq⟩ := h₁.step hP (allowed_true _) hstep
    have h₂ : Kept lim True P Q w₂ v := heq (Nat.succ_ne_zero j) ▸ h₂
    obtain ⟨q', hq', hrole'⟩ := step_role hstep hq
    refine ⟨h₂, fun i hi => ?_, q', hq', hrole'.trans hrole⟩
    rw [← hsame i hi]
    cases hi₁ : w₁.procs[i]? with
    | some q₁ => exact step_frame hstep hi hi₁
    | none =>
      rw [List.getElem?_eq_none_iff, h₁.length, ← h₂.length] at hi₁
      exact List.getElem?_eq_none hi₁
  · rintro w₁ q x ⟨h₁, -⟩ hq hcode
    obtain ⟨c, k, hcall, -⟩ := h₁.kid_running hq hcode
    cases hcall
  · rintro w₁ q r k ⟨h₁, -⟩ hq hcode
    obtain ⟨c, k, hcall, -⟩ := h₁.kid_running hq hcode
    cases hcall
  · rintro w₁ q c k ⟨h₁, hsame, q', hq', hrole⟩ hq hcode
    rw [hq] at hq'
    cases hq'
    obtain ⟨c', k', hcall, hkid⟩ := h₁.kid_running hq hcode
    cases hcall
    exact hgoes w₁ q c k h₁ hsame hq hrole hcode (hrole ▸ hkid)

/-- The main process can get to its return, by steps of a kind and without failures. -/
def Returns (lim : Limits) (ok : Act I → Prop) (w : World I α) : Prop :=
  ∃ as w' p x, Run (Steps lim False False) w as w' ∧ (∀ a ∈ as, ok a) ∧
    w'.procs[0]? = some p ∧ p.code = .running (.pure x)

theorem Returns.of_run {ok : Act I → Prop}
    (hrun : Run (Steps lim False False) w as w') (has : ∀ a ∈ as, ok a)
    (h : Returns lim ok w') : Returns lim ok w := by
  obtain ⟨as', w₂, p, x, hrun', has', hp, hcode⟩ := h
  refine ⟨as ++ as', w₂, p, x, hrun.append hrun', fun a ha => ?_, hp, hcode⟩
  rcases List.mem_append.mp ha with ha | ha
  · exact has a ha
  · exact has' a ha

/-- **The main process returns** if every child that it waits for can run to its end: from
its first wait on it neither forks nor creates pipes. -/
theorem Kept.returns {ok : Act I → Prop} {kids : List I.Role} {c : Prog I α} (hP : P.Sound)
    (hok : ∀ o, (∀ s, o ≠ .interrupted s) → ok (.call 0 o))
    (hhelp : ∀ {w : World I α} {v h}, Kept lim True P Q w v → v.kids = kids →
      P.main (.wait h false) v → ∃ as w', Run (Steps lim False False) w as w' ∧
        (∀ a ∈ as, a.pid ≠ 0 ∧ ok a) ∧ w'.isDead h = true) (h : Kept lim True P Q w v)
    (hkids : v.kids = kids) (hp : w.procs[0]? = some p)
    (hcode : p.code = .running c) (hlate : v.late = true ∨ ∃ q u k, c = .call (.wait q u) k) :
    Returns lim ok w := by
  induction c generalizing w v p with
  | pure x => exact ⟨[], w, p, x, .nil w, by simp, hp, hcode⟩
  | fork r k ih =>
    have hmain := (h.main_running hp hcode).2
    rcases hlate with hlate | ⟨q, u, k', hfork⟩
    · rw [hmain.2.1] at hlate
      cases hlate
    · cases hfork
  | call c k ih =>
    obtain ⟨hfds, hmain⟩ := h.main_running hp hcode
    -- a step of the main process, after which it has waited
    have hgo : ∀ {w : World I α} (o : Outcome) (x : c.Ret) (f : Fds I),
        Kept lim True P Q w v → w.procs[0]? = some p → o.Plain →
        (fdLocal lim True).next c v.fds x f → (v.late || c.isWait) = true →
        w.callStep lim 0 p c k o = some (w.set 0 ⟨p.role, f, .running (k x)⟩) →
        Returns lim ok w := by
      intro w o x f h hp ho hnext hlater hstep
      have hkept : Kept lim True P Q (w.set 0 ⟨p.role, f, .running (k x)⟩)
          ⟨f, v.kids, v.late || c.isWait⟩ :=
        h.setMain (q := ⟨p.role, f, .running (k x)⟩) rfl (hmain.2 x f hnext) fun _ => le_rfl
      have hreturns := ih x hkept hkids (getElem?_set_pid hp) rfl (.inl hlater)
      have hone : Steps lim False False w (.call 0 o) (w.set 0 ⟨p.role, f, .running (k x)⟩) :=
        ⟨allowed_call ho.of_fault, step_local hp hcode hstep⟩
      refine .of_run (.single hone) (fun a ha => ?_) hreturns
      rw [List.mem_singleton.mp ha]
      exact hok o ho.ne_interrupted
    have hlocal : c.isWait = false → v.late = true := by
      intro hwait
      rcases hlate with hlate | ⟨q, u, k', heq⟩
      · exact hlate
      · cases heq
        cases hwait
    cases c with
    | pipe t =>
      have hearly := hP.early hmain.1
      rw [hlocal rfl] at hearly
      cases hearly
    | openFile n =>
      refine hgo .refused none p.fds h hp trivial hfds ?_ rfl
      rw [hlocal rfl]
      rfl
    | close fd =>
      refine hgo .ok () (Function.update p.fds fd none) h hp trivial (by rw [hfds]; rfl) ?_ rfl
      rw [hlocal rfl]
      rfl
    | dup2 src dst =>
      refine hgo .ok () _ h hp trivial (by rw [← hfds]; rfl) ?_ rfl
      rw [hlocal rfl]
      rfl
    | book b =>
      refine hgo (.value 0) (0 : ℤ) p.fds h hp trivial hfds ?_ rfl
      rw [hlocal rfl]
      rfl
    | wait q u =>
      have hdead : ∀ {w : World I α}, Kept lim True P Q w v → w.procs[0]? = some p →
          w.isDead q = true → Returns lim ok w := by
        intro w h hp hdead
        refine hgo (.status .exited) .exited p.fds h hp trivial hfds (Bool.or_true _) ?_
        simp only [World.callStep, hdead]
        rfl
      cases u with
      | false =>
        obtain ⟨as, w', hrun, has, hq⟩ := hhelp h hkids hmain.1
        have hpid : ∀ a ∈ as, a.pid ≠ 0 := fun a ha => (has a ha).1
        refine .of_run hrun (fun a ha => (has a ha).2) ?_
        exact hdead (h.run_kids hP hrun hpid) (run_frame hrun hpid hp) hq
      | true =>
        by_cases hq : w.isDead q = true
        · exact hdead h hp hq
        · refine hgo (.status .stopped) .stopped p.fds h hp trivial hfds (Bool.or_true _) ?_
          simp only [World.callStep, hq]
          rfl
    | readByte fd => exact absurd hmain.1 hP.noRead
    | feed fd n => exact absurd hmain.1 hP.noFeed
    | drain fd => exact absurd hmain.1 hP.noDrain
    | exec n => exact absurd hmain.1 hP.noExec
    | exit n => exact absurd hmain.1 hP.noExit

end Ends

end Posix
end Lib
end RuShell
