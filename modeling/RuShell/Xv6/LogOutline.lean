import Mathlib.Tactic
import RuShell.Lib.Monitor
import RuShell.Lib.RedoLog
import RuShell.Xv6.Log

/-!
# The proof outline of the log

What a process knows at every control point of `log.c`, and that every statement
keeps to it.  The processes in an operation exclude the one that commits, so what the
latter knows about the blocks is not disturbed although it works without the lock.
From the header write on, the disk is a redo log for the new contents
(`Lib.Area.Redo`); before it, the disk is one for the old contents, with an empty log.

## Main definitions

* `Need`, `Awaits` — what a process waits for, and what `sys_sync` knows while it does.
* `Settled`, `Copied`, `Installs`, `Installed` — the phases of a commit.
* `Here`, `Knows`, `outline` — the assertions.

## Main results

* `ok_log`, `ok_head`, `ok_install`, `ok_erase` — the writes of a commit.
* `sound` — the outline is sound.
-/

namespace RuShell
namespace Xv6
namespace Logging

open Lib Lib.Monitor

variable {n start limit : ℕ}

/-- What a process is about at a point. -/
inductive Role
  | outside
  /-- In an operation, with a block changed and not yet logged, if any. -/
  | op (change : Option ℕ)
  | commits
  deriving DecidableEq, Repr

/-- The block that an operation has changed and not yet logged. -/
def Role.change : Role → Option ℕ
  | .op c => c
  | _ => none

namespace Point

/-- What a process at the point is doing. -/
def role : Point → Role
  | .bDone | .inOp | .lDone | .eEnter | .eTest => .op none
  | .lEnter b | .lTest b => .op (some b)
  | .eCommit | .cStart | .cLog _ | .cHead | .cInstall _ | .cZero | .cErase | .fEnter
  | .fTest => .commits
  | _ => .outside

/-- The points outside the lock. -/
def Unlocked : Point → Prop
  | .idle | .bEnter | .bSleep | .bAgain | .inOp | .lEnter _ | .eEnter | .cStart | .cLog _ | .cHead
  | .cInstall _ | .cZero | .cErase | .fEnter | .sEnter _ | .sSleep _ _ | .sAgain _ _ => True
  | _ => False

/-- The points from `sleep_prepare` to `sleep`; the channel is always the log. -/
def channel : Point → Option Unit
  | .bRelease | .bSleep | .sRelease _ _ | .sSleep _ _ => some ()
  | _ => none

/-- Where control goes on after a `sleep`. -/
def Resumes : Point → Point → Prop
  | .bSleep, q => q = .bAgain
  | .sSleep e k, q => q = .sAgain e k
  | _, _ => False

/-- The points at which a wakeup is to come before the lock is released. -/
def Owes : Point → Prop
  | .eWake | .fWake => True
  | _ => False

end Point

/-- `begin_op` has to wait. -/
def Blocked (d : Log n) : Prop := d.committing = true ∨ d.NoSpace

/-- Operations or a commit are in progress. -/
def Busy (d : Log n) : Prop := d.committing = true ∨ d.outstanding > 0

/-- A log that is not busy is empty, and everything that has ended is durable. -/
theorem Good.of_not_busy {d : Log n} (h : Good start limit d) (hidle : ¬ Busy d) :
    d.lh = [] ∧ d.durable = d.ended ∧ d.outstanding = 0 := by
  obtain ⟨hc, hpos⟩ := not_or.mp hidle
  have hzero : d.outstanding = 0 := Nat.eq_zero_of_not_pos hpos
  have hempty : d.active = ∅ := by
    rw [← Finset.card_eq_zero, ← h.count, hzero]
  obtain ⟨hlh, hdurable⟩ := h.drained (h.committer_of_not (by simpa using hc)) hempty
  exact ⟨hlh, hdurable, hzero⟩

/-- The condition that makes a process wait. -/
def Need (d : Log n) : Point → Prop
  | .bPrepare | .bRelease | .bSleep => Blocked d
  | .sPrepare _ k | .sRelease _ k | .sSleep _ k => d.ncommit < k
  | _ => True

/-- What `sys_sync` knows while it waits for the commit number `k`: it is in progress or
being gathered, and when it is there, the operations that had ended before are in it. -/
structure Awaits (d : Log n) (e k : ℕ) : Prop where
  ended : e ≤ d.ended
  next : k ≤ d.ncommit + 1
  there : k ≤ d.ncommit → e ≤ d.durable
  busy : d.ncommit < k → Busy d

/-- The blocks outside the log that are not in the transaction are on the disk. -/
def Settled (start : ℕ) (d : Log n) : Prop :=
  ∀ b, (area start).Home b → b ∉ d.lh → d.cache b = d.disk b

/-- The first `k` blocks of the transaction are in the log. -/
def Copied (start : ℕ) (d : Log n) (k : ℕ) : Prop :=
  ∀ i b, i < k → d.lh[i]? = some b →
    d.disk (start + i + 1) = d.cache b ∧ d.cache (start + i + 1) = d.cache b

/-- The transaction is committed, and its first `k` blocks are installed. -/
structure Installs (start : ℕ) (d : Log n) (k : ℕ) : Prop where
  redo : (area start).Redo d.disk d.committed d.lh
  cache : ∀ b, (area start).Home b → d.cache b = d.committed b
  copies : ∀ i b, d.lh[i]? = some b → d.cache (start + i + 1) = d.committed b
  done : ∀ i b, i < k → d.lh[i]? = some b → d.disk b = d.committed b
  durable : d.durable = d.ended

/-- Everything outside the log is on the disk as committed. -/
structure Installed (start : ℕ) (d : Log n) : Prop where
  disk : ∀ b, (area start).Home b → d.disk b = d.committed b
  cache : ∀ b, (area start).Home b → d.cache b = d.committed b
  durable : d.durable = d.ended

/-- What a process knows about the log at a point. -/
def Here (start : ℕ) (d : Log n) : Point → Prop
  | .bPrepare | .bRelease => Blocked d
  | .eCommit | .cStart => (area start).Redo d.disk d.committed [] ∧ Settled start d
  | .cLog tail =>
    (area start).Redo d.disk d.committed [] ∧ Settled start d ∧ Copied start d tail
  | .cHead =>
    (area start).Redo d.disk d.committed [] ∧ Settled start d ∧ Copied start d d.lh.length
  | .cInstall tail => Installs start d tail
  | .cZero => Installed start d
  | .cErase => Installed start d ∧ d.lh = []
  | .fEnter | .fTest =>
    Installed start d ∧ d.lh = [] ∧ (area start).Redo d.disk d.committed []
  | .sEnter e | .sTest e => e ≤ d.ended
  | .sLoop e k | .sSleep e k | .sAgain e k => Awaits d e k
  | .sPrepare e k | .sRelease e k => Awaits d e k ∧ d.ncommit < k
  | .sDone e => e ≤ d.durable
  | _ => True

/-- What a process knows at a point. -/
structure Knows (start limit : ℕ) (t : Fin n) (p : Point) (d : Log n) : Prop where
  good : Good start limit d
  active : t ∈ d.active ↔ ∃ c, p.role = .op c
  loose : d.loose t = p.role.change
  committer : d.committer = some t ↔ p.role = .commits
  here : Here start d p

/-- The proof outline: whoever lowers the count or ends a commit owes a wakeup. -/
def outline (start limit n : ℕ) : Outline n (Log n) Unit Point where
  holds p := ¬ p.Unlocked
  assert := Knows start limit
  waits := Point.channel
  resumes := Point.Resumes
  need p d := Need d p
  owes p _ := p.Owes
  holds_of_owes {p c} h := by
    cases p <;> first | exact id | exact h.elim

section Sound

variable {d d' : Log n} {t t' : Fin n} {p q p' : Point} {b tail : ℕ}

/-- A step that leaves the log alone and stays in the same role. -/
theorem Knows.goto (h : Knows start limit t p d) (hrole : q.role = p.role)
    (hhere : Here start d q) : Knows start limit t q d :=
  ⟨h.good, by rw [hrole]; exact h.active, by rw [hrole]; exact h.loose,
    by rw [hrole]; exact h.committer, hhere⟩

/-- How the log moves on, as `sys_sync` sees it. -/
structure Later (d d' : Log n) : Prop where
  ended : d.ended ≤ d'.ended
  durable : d.durable ≤ d'.durable
  commit : d'.ncommit = d.ncommit ∧ (Busy d → Busy d') ∨
    d'.ncommit = d.ncommit + 1 ∧ d'.durable = d'.ended

theorem Awaits.later {e k : ℕ} (h : Awaits d e k) (hl : Later d d') : Awaits d' e k := by
  have hd := hl.durable
  have he := hl.ended
  have hended := h.ended
  rcases hl.commit with ⟨hn, hbusy⟩ | ⟨hn, hall⟩
  · refine ⟨h.ended.trans he, by rw [hn]; exact h.next, fun hk => ?_, fun hk => hbusy (h.busy ?_)⟩
    · exact (h.there (hn ▸ hk)).trans hd
    · rwa [hn] at hk
  · have hnext := h.next
    exact ⟨by omega, by omega, fun _ => by omega, fun hk => by omega⟩

/-- What a process knows outside a commit survives what the others do. -/
theorem Here.later (h : Here start d p') (hp : p'.role ≠ .commits)
    (hneed : ¬ p'.Unlocked → Need d p' → Need d' p') (hl : Later d d') : Here start d' p' := by
  cases p' with
  | bPrepare | bRelease => exact hneed id h
  | sEnter e | sTest e => exact le_trans h hl.ended
  | sLoop e k | sSleep e k | sAgain e k => exact Awaits.later h hl
  | sPrepare e k | sRelease e k => exact ⟨Awaits.later h.1 hl, hneed id h.2⟩
  | sDone e => exact le_trans h hl.durable
  | _ => first | exact absurd rfl hp | trivial

/-- What one process knows survives what another does, unless it is the one that commits. -/
theorem Knows.frame (h : Knows start limit t' p' d) (hgood : Good start limit d')
    (hactive : t' ∈ d'.active ↔ t' ∈ d.active) (hloose : d'.loose t' = d.loose t')
    (hcommitter : d'.committer = some t' ↔ d.committer = some t') (hnot : d.committer ≠ some t')
    (hneed : ¬ p'.Unlocked → Need d p' → Need d' p') (hlater : Later d d') :
    Knows start limit t' p' d' :=
  ⟨hgood, hactive.trans h.active, hloose.trans h.loose, hcommitter.trans h.committer,
    h.here.later (fun hp => hnot (h.committer.mpr hp)) hneed hlater⟩

/-- A statement that only moves on. -/
theorem ok_goto (h : Knows start limit t q d) (hl : q.Unlocked ↔ p.Unlocked) (hq : q.channel = none)
    (ho : p.Owes → q.Owes) : (outline start limit n).Ok t p d (.update d q) :=
  ⟨not_congr hl, h, hq, fun _ => ho, fun _ _ _ _ h => h, fun _ _ _ h => .inl h⟩

/-- A condition to wait for goes away only where a wakeup is owed. -/
theorem Need.later (h : Need d p') (hblocked : Blocked d → Blocked d' ∨ q.Owes)
    (hncommit : d'.ncommit = d.ncommit ∨ q.Owes) : Need d' p' ∨ q.Owes := by
  have hcommit : ∀ k, d.ncommit < k → d'.ncommit < k ∨ q.Owes := by
    intro k hk
    rcases hncommit with he | ho
    · exact .inl (by rwa [he])
    · exact .inr ho
  cases p' with
  | bPrepare | bRelease | bSleep => exact hblocked h
  | sPrepare e k | sRelease e k | sSleep e k => exact hcommit k h
  | _ => exact .inl trivial

/-- A statement on the log. -/
theorem ok_update (h : Knows start limit t q d') (hl : q.Unlocked ↔ p.Unlocked)
    (hq : q.channel = none) (ho : ¬ p.Owes)
    (hactive : ∀ t', t' ≠ t → (t' ∈ d'.active ↔ t' ∈ d.active))
    (hloose : ∀ t', t' ≠ t → d'.loose t' = d.loose t')
    (hcommitter : ∀ t', t' ≠ t → (d'.committer = some t' ↔ d.committer = some t'))
    (hnot : ∀ t', t' ≠ t → d.committer ≠ some t')
    (hblocked : Blocked d → Blocked d' ∨ q.Owes) (hncommit : d'.ncommit = d.ncommit ∨ q.Owes)
    (hlater : Later d d') : (outline start limit n).Ok t p d (.update d' q) := by
  refine ⟨not_congr hl, h, hq, fun _ hc => absurd hc ho, ?_, ?_⟩
  · intro t' p' ht hlock hk
    refine Knows.frame (show Knows start limit t' p' d from hk) h.good (hactive t' ht)
      (hloose t' ht) (hcommitter t' ht) (hnot t' ht) (fun hu hn => ?_) hlater
    -- two processes are not both inside the lock, so no wakeup is owed here
    have hp : p.Unlocked := by
      by_contra hp
      exact absurd hu (hlock hp)
    refine (Need.later hn hblocked hncommit).resolve_right fun hq => ?_
    exact (outline start limit n).holds_of_owes (c := ()) hq (hl.mpr hp)
  · intro p' c hwait hn
    exact Need.later hn hblocked hncommit

/-- A statement of the committing process outside the lock. -/
theorem ok_commit {lh : List ℕ} {cache disk committed : ℕ → Block} {durable : ℕ}
    (h : Knows start limit t p d) (hp : p.role = .commits) (hq : q.role = .commits)
    (hpu : p.Unlocked) (hqu : q.Unlocked) (hlh : lh = d.lh ∨ lh = [])
    (hredo : ∃ L, (area start).Redo disk committed L)
    (hdurable : d.durable ≤ durable ∧ durable ≤ d.ended)
    (hhere : Here start { d with lh, cache, disk, committed, durable } q) :
    (outline start limit n).Ok t p d
      (.update { d with lh, cache, disk, committed, durable } q) := by
  have hc : d.committer = some t := h.committer.mpr hp
  have hcommitting : d.committing = true := h.good.committing.mpr (by simp [hc])
  have hchan : q.channel = none := by
    cases q <;> first | rfl | cases hq
  have howes : ¬ p.Owes := fun ho => (outline start limit n).holds_of_owes (c := ()) ho hpu
  refine ok_update ⟨h.good.commit hc hlh hredo hdurable.2, ?_, ?_, ?_, hhere⟩
    (iff_of_true hqu hpu) hchan howes (fun _ _ => Iff.rfl)
    (fun _ _ => rfl) (fun _ _ => Iff.rfl) (fun t' ht => by simp [hc, ht.symm])
    (fun _ => .inl (.inl hcommitting)) (.inl rfl) ⟨le_rfl, hdurable.1, .inl ⟨rfl, fun hb => hb⟩⟩
  · rw [hq, ← hp]
    exact h.active
  · rw [hq, ← hp]
    exact h.loose
  · exact iff_of_true hc hq

/-! ### The statements of `commit` -/

@[simp] theorem area_start (start : ℕ) : (area start).start = start := rfl

/-- `write_log`: one more block is in the log. -/
theorem ok_log (h : Knows start limit t (.cLog tail) d) (hb : d.lh[tail]? = some b) :
    (outline start limit n).Ok t (.cLog tail) d
      (.update (d.bwrite (start + tail + 1) (d.cache b)) (.cLog (tail + 1))) := by
  obtain ⟨hredo, hsettled, hcopied⟩ := h.here
  have hsize : ∀ i, i < d.lh.length → i < (area start).size := fun i hi =>
    hi.trans_le h.good.length_le
  have htail := Area.lt_of_getElem? hb
  -- a block outside the log is not the one written to
  have hne : ∀ b, (area start).Home b → b ≠ start + tail + 1 := fun b hb =>
    hb.ne_copy (hsize tail htail)
  have hredo' : (area start).Redo (Function.update d.disk (start + tail + 1) (d.cache b))
      d.committed [] := by
    refine hredo.congr (Function.update_of_ne ?_ _ _) (fun i hi => by cases hi) ?_
    · simp only [area_start]
      omega
    · intro b' hb' _
      exact Function.update_of_ne (hne b' hb') _ _
  refine ok_commit h rfl rfl trivial trivial (.inl rfl) ⟨[], hredo'⟩ ⟨le_rfl, h.good.durable⟩
    ⟨hredo', ?_, ?_⟩
  · intro b' hb' hlh
    simp only [Function.update_of_ne (hne b' hb')]
    exact hsettled b' hb' hlh
  · intro i b' hi hb'
    have hb'ne := hne b' (h.good.home b' (List.mem_of_getElem? hb'))
    simp only [Function.update_of_ne hb'ne]
    rcases Nat.lt_or_eq_of_le (Nat.le_of_lt_succ hi) with hlt | rfl
    · have hne' : start + i + 1 ≠ start + tail + 1 := by omega
      simp only [Function.update_of_ne hne']
      exact hcopied i b' hlt hb'
    · rw [show d.lh[i]? = some b' from hb', Option.some.injEq] at hb
      subst hb
      simp

/-- `write_head`: the transaction is committed. -/
theorem ok_head (h : Knows start limit t .cHead d) :
    (outline start limit n).Ok t .cHead d
      (.update { d.bwrite start (writeHead d.lh (d.cache start)) with
        committed := (d.bwrite start (writeHead d.lh (d.cache start))).cache
        durable := d.ended } (.cInstall 0)) := by
  obtain ⟨-, hsettled, hcopied⟩ := h.here
  have hhome : ∀ {b : ℕ} {x : Block} (f : ℕ → Block), (area start).Home b →
      Function.update f start x b = f b := fun f hb => hb.update_start f _
  have hcopy : ∀ (i : ℕ) (x : Block) (f : ℕ → Block),
      Function.update f start x (start + i + 1) = f (start + i + 1) :=
    fun i x f => Function.update_of_ne (by omega) _ _
  have hredo : (area start).Redo
      (Function.update d.disk start (writeHead d.lh (d.cache start)))
      (Function.update d.cache start (writeHead d.lh (d.cache start))) d.lh := by
    refine ⟨?_, h.good.length_le, h.good.home, ?_, ?_⟩
    · simp only [area_start, Function.update_self]
      exact readHead_writeHead _ _
    · intro i b hi
      rw [area_start, hcopy, hhome _ (h.good.home b (List.mem_of_getElem? hi))]
      exact (hcopied i b (Area.lt_of_getElem? hi) hi).1
    · intro b hb hlh
      rw [hhome _ hb, hhome _ hb]
      exact (hsettled b hb hlh).symm
  refine ok_commit h rfl rfl trivial trivial (.inl rfl) ⟨_, hredo⟩ ⟨h.good.durable, le_rfl⟩
    ⟨hredo, fun _ _ => rfl, ?_, fun i b hi => absurd hi (Nat.not_lt_zero i), rfl⟩
  intro i b hi
  have hi' : d.lh[i]? = some b := hi
  simp only [Log.bwrite]
  rw [hcopy, hhome _ (h.good.home b (List.mem_of_getElem? hi'))]
  exact (hcopied i b (Area.lt_of_getElem? hi') hi').2

/-- `install_trans`: one more block is home. -/
theorem ok_install (h : Knows start limit t (.cInstall tail) d)
    (hb : d.lh[tail]? = some b) :
    (outline start limit n).Ok t (.cInstall tail) d
      (.update (d.bwrite b (d.cache (start + tail + 1))) (.cInstall (tail + 1))) := by
  have hhere : Installs start d tail := h.here
  have hmem := List.mem_of_getElem? hb
  have hval := hhere.copies tail b hb
  have hredo := hhere.redo.update hmem (d.cache (start + tail + 1))
  refine ok_commit h rfl rfl trivial trivial (.inl rfl) ⟨_, hredo⟩ ⟨le_rfl, h.good.durable⟩
    ⟨hredo, ?_, ?_, ?_, hhere.durable⟩
  · intro b' hb'
    by_cases he : b' = b
    · subst he
      simpa using hval
    · simpa [he] using hhere.cache b' hb'
  · intro i b' hi
    have hi' : d.lh[i]? = some b' := hi
    have hne : start + i + 1 ≠ b := fun he =>
      (h.good.home b hmem).ne_copy ((Area.lt_of_getElem? hi').trans_le h.good.length_le) he.symm
    simpa [hne] using hhere.copies i b' hi'
  · intro i b' hi hb'
    have hb'' : d.lh[i]? = some b' := hb'
    by_cases he : b' = b
    · subst he
      simpa using hval
    · rcases Nat.lt_or_eq_of_le (Nat.le_of_lt_succ hi) with hlt | rfl
      · simpa [he] using hhere.done i b' hlt hb''
      · rw [hb'', Option.some.injEq] at hb
        exact absurd hb he

/-- The end of `install_trans`. -/
theorem Installs.installed (h : Installs start d tail) (htail : d.lh[tail]? = none) :
    Installed start d := by
  refine ⟨fun b hb => ?_, h.cache, h.durable⟩
  by_cases hlh : b ∈ d.lh
  · obtain ⟨i, hi⟩ := List.getElem?_of_mem hlh
    refine h.done i b ?_ hi
    exact (Area.lt_of_getElem? hi).trans_le (List.getElem?_eq_none_iff.mp htail)
  · exact h.redo.rest b hb hlh

/-- The second `write_head`: the log is empty. -/
theorem ok_erase (h : Knows start limit t .cErase d) :
    (outline start limit n).Ok t .cErase d
      (.update (d.bwrite start (writeHead d.lh (d.cache start))) .fEnter) := by
  obtain ⟨hin, hlh⟩ := h.here
  have hhome : ∀ {b : ℕ} {x : Block} (f : ℕ → Block), (area start).Home b →
      Function.update f start x b = f b := fun f hb => hb.update_start f _
  have hredo : (area start).Redo (Function.update d.disk start (writeHead d.lh (d.cache start)))
      d.committed [] :=
    Area.redo_erase hin.disk (by rw [hlh]; exact readHead_writeHead [] (d.cache start))
  refine ok_commit h rfl rfl trivial trivial (.inl rfl) ⟨_, hredo⟩ ⟨le_rfl, h.good.durable⟩
    ⟨⟨fun b hb => ?_, fun b hb => ?_, hin.durable⟩, hlh, hredo⟩
  · simp only [hhome _ hb]
    exact hin.disk b hb
  · simp only [hhome _ hb]
    exact hin.cache b hb

/-! ### The other statements -/

/-- `begin_op` counts the operation. -/
theorem ok_begin (h : Knows start limit t .bTest d) (hc : d.committing = false)
    (hspace : ¬ d.NoSpace) :
    (outline start limit n).Ok t .bTest d (.update (d.beginOp t) .bDone) := by
  have hout : t ∉ d.active := by
    rw [h.active]
    rintro ⟨c, hrole⟩
    cases hrole
  have hnone := h.good.committer_of_not hc
  refine ok_update ⟨h.good.beginOp hout hc hspace h.loose, ?_, h.loose, ?_, trivial⟩ Iff.rfl rfl
    id ?_ (fun _ _ => rfl) (fun _ _ => Iff.rfl) (fun _ _ => by simp [hnone]) ?_ (.inl rfl)
    ⟨le_rfl, le_rfl, .inl ⟨rfl, ?_⟩⟩
  · exact iff_of_true (Finset.mem_insert_self t d.active) ⟨none, rfl⟩
  · exact iff_of_false (by simp [Log.beginOp, hnone]) (by simp [Point.role])
  · intro t' ht
    simp [Log.beginOp, ht]
  · rintro (hb | hb)
    · rw [hc] at hb
      cases hb
    · exact absurd hb hspace
  · intro _
    exact .inr (Nat.succ_pos _)

/-- A block is changed in its buffer. -/
theorem ok_change (h : Knows start limit t .inOp d) (hb : (area start).Home b)
    (hw : b ∈ d.wrote t ∨ (d.wrote t).card < limit) (v : Block) :
    (outline start limit n).Ok t .inOp d (.update (d.change t b v) (.lEnter b)) := by
  have ht : t ∈ d.active := h.active.mpr ⟨none, rfl⟩
  have hnone := h.good.committer_of_active ht
  refine ok_update ⟨h.good.change ht hb hw h.loose v, ?_, ?_, ?_, trivial⟩ Iff.rfl rfl id
    (fun _ _ => Iff.rfl) ?_ (fun _ _ => Iff.rfl) (fun _ _ => by simp [hnone]) (fun hb => .inl hb)
    (.inl rfl) ⟨le_rfl, le_rfl, .inl ⟨rfl, fun hb => hb⟩⟩
  · exact iff_of_true ht ⟨some b, rfl⟩
  · simp [Log.change, Point.role, Role.change]
  · exact iff_of_false (by simp [Log.change, hnone]) (by simp [Point.role])
  · intro t' ht'
    simp [Log.change, ht']

/-- `log_write` notes the block. -/
theorem ok_note (hlimit : limit < maxopblocks) (h : Knows start limit t (.lTest b) d) :
    (outline start limit n).Ok t (.lTest b) d (.update (d.note t b) .lDone) := by
  have ht : t ∈ d.active := h.active.mpr ⟨some b, rfl⟩
  have hnone := h.good.committer_of_active ht
  refine ok_update ⟨h.good.note hlimit h.loose, ?_, ?_, ?_, trivial⟩
    Iff.rfl rfl id (fun _ _ => Iff.rfl) ?_ (fun _ _ => Iff.rfl) (fun _ _ => by simp [hnone]) ?_
    (.inl rfl) ⟨le_rfl, le_rfl, .inl ⟨rfl, fun hb => hb⟩⟩
  · exact iff_of_true ht ⟨none, rfl⟩
  · simp [Log.note, Point.role, Role.change]
  · exact iff_of_false (by simp [Log.note, hnone]) (by simp [Point.role])
  · intro t' ht'
    simp [Log.note, ht']
  · rintro (hb | hb)
    · exact .inl (.inl hb)
    · refine .inl (.inr (lt_of_lt_of_le hb (Nat.add_le_add_right ?_ _)))
      exact (Nat.le_add_right _ _).trans (length_absorb d.lh b).ge

/-- `end_op` with other operations in progress. -/
theorem ok_end (h : Knows start limit t .eTest d) (hmore : d.outstanding - 1 ≠ 0) :
    (outline start limit n).Ok t .eTest d (.update (d.endOp t) .eWake) := by
  have ht : t ∈ d.active := h.active.mpr ⟨none, rfl⟩
  have hnone := h.good.committer_of_active ht
  have hgood : Good start limit (d.endOp t) :=
    h.good.endOp ht h.loose h.good.committing (iff_of_false (by simp [hnone]) hmore)
  refine ok_update ⟨hgood, ?_, h.loose, ?_, trivial⟩ Iff.rfl rfl id ?_ (fun _ _ => rfl)
    (fun _ _ => Iff.rfl) (fun _ _ => by simp [hnone]) (fun _ => .inr trivial) (.inl rfl)
    ⟨Nat.le_succ _, le_rfl, .inl ⟨rfl, fun _ => .inr (Nat.pos_of_ne_zero hmore)⟩⟩
  · refine iff_of_false (Finset.notMem_erase t d.active) ?_
    rintro ⟨c, hrole⟩
    cases hrole
  · exact iff_of_false (by simp [Log.endOp, hnone]) (by simp [Point.role])
  · intro t' ht'
    simp [Log.endOp, ht']

/-- `end_op` of the last operation: from here on this process commits. -/
theorem ok_last (h : Knows start limit t .eTest d) (hlast : d.outstanding - 1 = 0) :
    (outline start limit n).Ok t .eTest d
      (.update { d.endOp t with committing := true, committer := some t } .eCommit) := by
  have ht : t ∈ d.active := h.active.mpr ⟨none, rfl⟩
  have hnone := h.good.committer_of_active ht
  have hgood : Good start limit { d.endOp t with committing := true, committer := some t } :=
    h.good.endOp ht h.loose (by simp) (iff_of_true (by simp) hlast)
  have hloose := h.good.loose_of_last ht h.loose hlast
  obtain ⟨hredo, hclean⟩ := h.good.quiet hnone
  refine ok_update ⟨hgood, ?_, h.loose, ?_, ⟨hredo, fun b hb hlh => ?_⟩⟩ Iff.rfl rfl id ?_
    (fun _ _ => rfl) ?_ (fun _ _ => by simp [hnone]) (fun _ => .inl (.inl rfl)) (.inl rfl)
    ⟨Nat.le_succ _, le_rfl, .inl ⟨rfl, fun _ => .inl rfl⟩⟩
  · refine iff_of_false (Finset.notMem_erase t d.active) ?_
    rintro ⟨c, hrole⟩
    cases hrole
  · exact iff_of_true rfl rfl
  · exact hclean b hb hlh fun t' => by rw [hloose t']; simp
  · intro t' ht'
    simp [Log.endOp, ht']
  · intro t' ht'
    simp [hnone, ht'.symm]

/-- `end_op` after the commit. -/
theorem ok_finish (h : Knows start limit t .fTest d) :
    (outline start limit n).Ok t .fTest d
      (.update { d with committing := false, committer := none, ncommit := d.ncommit + 1 }
        .fWake) := by
  obtain ⟨hin, hlh, hredo⟩ := h.here
  have hc : d.committer = some t := h.committer.mpr rfl
  have hsame : ∀ b, (area start).Home b → d.cache b = d.disk b := fun b hb =>
    (hin.cache b hb).trans (hin.disk b hb).symm
  refine ok_update ⟨h.good.finish hlh hredo hsame hin.durable, ?_, h.loose, ?_, trivial⟩ Iff.rfl
    rfl id (fun _ _ => Iff.rfl) (fun _ _ => rfl) ?_ (fun t' ht => by simp [hc, ht.symm])
    (fun _ => .inr trivial) (.inr trivial)
    ⟨le_rfl, le_rfl, .inr ⟨rfl, hin.durable⟩⟩
  · exact h.active.trans (by simp [Point.role])
  · exact iff_of_false (by simp) (by simp [Point.role])
  · intro t' ht
    simp [hc, ht.symm]

theorem ok_acquire (h : Knows start limit t q d) (hp : p.Unlocked) (hq : ¬ q.Unlocked)
    (hchan : q.channel = none) : (outline start limit n).Ok t p d (.acquire q) :=
  ⟨not_not.mpr hp, hq, h, hchan⟩

theorem ok_release (h : Knows start limit t q d) (hp : ¬ p.Unlocked) (hq : q.Unlocked)
    (ho : ¬ p.Owes) (hchan : q.channel = none) : (outline start limit n).Ok t p d (.release q) :=
  ⟨hp, not_not.mpr hq, h, fun _ => ho, .inl hchan⟩

theorem ok_wakeup (h : Knows start limit t q d) (hl : q.Unlocked ↔ p.Unlocked)
    (hchan : q.channel = none) : (outline start limit n).Ok t p d (.wakeup () q) :=
  ⟨not_congr hl, h, hchan, fun _ _ hc => absurd rfl hc⟩

theorem sound (hlimit : limit < maxopblocks) :
    (outline start limit n).Sound (code start limit) := by
  intro t p killed x d h
  have h : Knows start limit t p d := h
  have hhere := h.here
  -- moving on in the same role
  have hgo : ∀ q : Point, q.role = p.role → Here start d q → Knows start limit t q d :=
    fun q => h.goto
  cases p with
  | idle =>
    cases x with
    | op => exact ok_goto (hgo _ rfl trivial) Iff.rfl rfl id
    | sync => exact ok_goto (hgo (.sEnter d.ended) rfl le_rfl) Iff.rfl rfl id
    | write b v | done => exact ok_goto h Iff.rfl rfl id
  | bEnter | bAgain | lEnter b | eEnter =>
    exact ok_acquire (hgo _ rfl trivial) trivial id rfl
  | bTest =>
    simp only [code]
    split
    · exact ok_goto (hgo .bPrepare rfl (.inl ‹_›)) Iff.rfl rfl id
    · rename_i hc
      split
      · exact ok_goto (hgo .bPrepare rfl (.inr ‹_›)) Iff.rfl rfl id
      · exact ok_begin h (by simpa using hc) ‹_›
  | bPrepare => exact ⟨id, id, hgo .bRelease rfl hhere, rfl, hhere, fun _ hc => hc⟩
  | bRelease =>
    exact ⟨id, not_not.mpr trivial, hgo _ rfl trivial, fun _ => id, .inr ⟨rfl, id⟩⟩
  | bSleep =>
    exact ⟨not_not.mpr trivial, not_not.mpr trivial, hgo _ rfl trivial, ⟨(), rfl⟩, rfl, rfl⟩
  | bDone | lDone | eDone | fDone | sDone e =>
    exact ok_release (hgo _ rfl trivial) id trivial id rfl
  | inOp =>
    cases x with
    | op | sync => exact ok_goto h Iff.rfl rfl id
    | done => exact ok_goto (hgo _ rfl trivial) Iff.rfl rfl id
    | write b v =>
      simp only [code]
      split
      · rename_i hcond
        exact ok_change h hcond.1 hcond.2 v
      · exact ok_goto h Iff.rfl rfl id
  | lTest b =>
    have ht : t ∈ d.active := h.active.mpr ⟨some b, rfl⟩
    have hlen := h.good.length_lt hlimit ht
    have hcount : ¬ d.outstanding < 1 := by
      rw [h.good.count]
      exact Nat.not_lt.mpr (Finset.card_pos.mpr ⟨t, ht⟩)
    simp only [code, Nat.not_le.mpr hlen, hcount, if_false]
    exact ok_note hlimit h
  | eTest =>
    have hc := h.good.committing_of_active (h.active.mpr ⟨none, rfl⟩)
    simp only [code, hc]
    by_cases hlast : d.outstanding - 1 = 0
    · simp only [hlast, if_true]
      exact ok_last h hlast
    · simp only [hlast, if_false]
      exact ok_end h hlast
  | eWake => exact ok_wakeup (hgo .eDone rfl trivial) Iff.rfl rfl
  | eCommit => exact ok_release (hgo .cStart rfl hhere) id trivial id rfl
  | cStart =>
    obtain ⟨hredo, hsettled⟩ := hhere
    simp only [code]
    split
    · refine ok_goto (hgo (.cLog 0) rfl ⟨hredo, hsettled, ?_⟩) Iff.rfl rfl id
      intro i b hi
      exact absurd hi (Nat.not_lt_zero i)
    · rename_i hzero
      have hlh : d.lh = [] := List.eq_nil_of_length_eq_zero (by omega)
      have hdisk : ∀ b, (area start).Home b → d.disk b = d.committed b := fun b hb =>
        hredo.rest b hb List.not_mem_nil
      refine ok_commit h rfl rfl trivial trivial (.inl rfl) ⟨[], hredo⟩ ⟨h.good.durable, le_rfl⟩
        ⟨⟨hdisk, fun b hb => ?_, rfl⟩, hlh, hredo⟩
      exact (hsettled b hb (by rw [hlh]; exact List.not_mem_nil)).trans (hdisk b hb)
  | cLog tail =>
    obtain ⟨hredo, hsettled, hcopied⟩ := hhere
    cases hb : d.lh[tail]? with
    | none =>
      simp only [code, hb]
      refine ok_goto (hgo .cHead rfl ⟨hredo, hsettled, ?_⟩) Iff.rfl rfl id
      intro i b hi
      exact hcopied i b (hi.trans_le (List.getElem?_eq_none_iff.mp hb))
    | some b =>
      simp only [code, hb]
      exact ok_log h hb
  | cHead => exact ok_head h
  | cInstall tail =>
    cases hb : d.lh[tail]? with
    | none =>
      simp only [code, hb]
      have hin : Installed start d := Installs.installed (show Installs start d tail from hhere) hb
      exact ok_goto (hgo .cZero rfl hin) Iff.rfl rfl id
    | some b =>
      simp only [code, hb]
      exact ok_install h hb
  | cZero =>
    have hin : Installed start d := hhere
    exact ok_commit h rfl rfl trivial trivial (.inr rfl) h.good.redo ⟨le_rfl, h.good.durable⟩
      ⟨⟨hin.disk, hin.cache, hin.durable⟩, rfl⟩
  | cErase => exact ok_erase h
  | fEnter => exact ok_acquire (hgo .fTest rfl hhere) trivial id rfl
  | fTest => exact ok_finish h
  | fWake => exact ok_wakeup (hgo .fDone rfl trivial) Iff.rfl rfl
  | sEnter e => exact ok_acquire (hgo (.sTest e) rfl hhere) trivial id rfl
  | sTest e =>
    have hended : e ≤ d.ended := hhere
    simp only [code]
    split
    · rename_i hbusy
      refine ok_goto (hgo (.sLoop e (d.ncommit + 1)) rfl ?_) Iff.rfl rfl id
      exact ⟨hended, le_rfl, fun hk => by omega, fun _ => hbusy⟩
    · rename_i hidle
      refine ok_goto (hgo (.sDone e) rfl ?_) Iff.rfl rfl id
      exact hended.trans (h.good.of_not_busy hidle).2.1.ge
  | sLoop e k =>
    have hawait : Awaits d e k := hhere
    simp only [code]
    split
    · exact ok_goto (hgo (.sPrepare e k) rfl ⟨hawait, ‹_›⟩) Iff.rfl rfl id
    · rename_i hk
      exact ok_goto (hgo (.sDone e) rfl (hawait.there (not_lt.mp hk))) Iff.rfl rfl id
  | sPrepare e k => exact ⟨id, id, hgo (.sRelease e k) rfl hhere, rfl, hhere.2, fun _ hc => hc⟩
  | sRelease e k =>
    exact ⟨id, not_not.mpr trivial, hgo (.sSleep e k) rfl hhere.1, fun _ => id, .inr ⟨rfl, id⟩⟩
  | sSleep e k =>
    exact ⟨not_not.mpr trivial, not_not.mpr trivial, hgo (.sAgain e k) rfl hhere, ⟨(), rfl⟩, rfl,
      rfl⟩
  | sAgain e k => exact ok_acquire (hgo (.sLoop e k) rfl hhere) trivial id rfl

end Sound

end Logging
end Xv6
end RuShell
