import Mathlib.Tactic
import RuShell.Lib.Monitor
import RuShell.Lib.RedoLog

/-!
# The log of the file system

`xv6/kernel/log.c`: operations write blocks into the cache between `begin_op` and
`end_op`, `log_write` notes which, and the last operation to end commits them all: it
copies them to the log on the disk, writes the header, installs the blocks and erases
the header.  `sys_sync` waits for a commit, and `recover_from_log` installs what a
crash has left in the log.

Any number of processes run operations at once.  Every statement is a step of its
own, and the machine may crash between any two steps.  An operation writes any blocks
outside the log, each as often as it likes, but at most `limit` different ones.  The
results are for a `limit` below `MAXOPBLOCKS`: `log_write` tests for a full log before
it looks for the block, so that the last place in it cannot be used.

A block is an array of `int`s; the header has the number of blocks in its first word
and the block numbers behind it.  `cache` is what `bread` returns: a changed block
stays in a buffer, from `log_write` on by being pinned.  The history is kept in fields
that no statement reads.

## Main definitions

* `readHead`, `writeHead`, `area`, `recoverFromLog` — the log on the disk, as a `Lib.Area`.
* `Log`, `Point`, `code` — the state, the control points and the statements.
* `Good` — what is true of the log at any time.

## Main results

* `readHead_writeHead` — the header reads back as it was written.
* `Good.beginOp`, `Good.change`, `Good.note`, `Good.endOp`, `Good.commit`, `Good.finish` — the
  statements keep what is always true.
-/

namespace RuShell
namespace Xv6
namespace Logging

open Lib Lib.Monitor

/-- `MAXOPBLOCKS` -/
def maxopblocks : ℕ := 10

/-- `LOGBLOCKS` -/
def logblocks : ℕ := maxopblocks * 3

/-- The contents of a disk block. -/
abbrev Block := ℕ → ℕ

/-! ### The header -/

/-- The copy loop of `read_head`. -/
def readHead (b : Block) : List ℕ := (List.range (b 0)).map fun i => b (i + 1)

/-- The copy loop of `write_head`: the rest of the block stays. -/
def writeHead (lh : List ℕ) (b : Block) : Block
  | 0 => lh.length
  | i + 1 => lh.getD i (b (i + 1))

theorem readHead_writeHead (lh : List ℕ) (b : Block) : readHead (writeHead lh b) = lh := by
  apply List.ext_getElem
  · simp [readHead, writeHead]
  · intro i h₁ h₂
    simp [readHead, writeHead, h₂]

/-- The log on the disk: the header at `log.start` and `LOGBLOCKS` blocks behind it. -/
def area (start : ℕ) : Area Block where
  start := start
  size := logblocks
  head := readHead
  erase := writeHead []
  head_erase := readHead_writeHead []

/-- `recover_from_log`: `read_head`, `install_trans(1)`, and `write_head` for an empty log. -/
def recoverFromLog (start : ℕ) (disk : ℕ → Block) : ℕ → Block := (area start).recover disk

/-! ### The state -/

/-- `struct log` without its lock and the constants, the cache and the disk. -/
structure Log (n : ℕ) where
  /-- How many file system calls are executing. -/
  outstanding : ℕ
  /-- In `commit`, please wait. -/
  committing : Bool
  /-- How many commits there have been.  It is an `int` in the source and unbounded here:
  the model is that of a run of fewer than `2 ^ 31 - 1` commits. -/
  ncommit : ℕ
  /-- `log.lh.block`, up to `log.lh.n`. -/
  lh : List ℕ
  cache : ℕ → Block
  disk : ℕ → Block
  /-- The processes between `begin_op` and `end_op`. -/
  active : Finset (Fin n)
  /-- The blocks that an operation has logged. -/
  wrote : Fin n → Finset ℕ
  /-- The block that a process has changed and not yet logged. -/
  loose : Fin n → Option ℕ
  /-- The process that commits. -/
  committer : Option (Fin n)
  /-- The contents at the last commit. -/
  committed : ℕ → Block
  /-- How many operations have ended. -/
  ended : ℕ
  /-- How many of them are in the last commit. -/
  durable : ℕ

/-- The control points; `e` is the number of operations that had ended when `sys_sync` was
called, `k` the `n` it waits for. -/
inductive Point
  | idle
  /- `begin_op` -/
  | bEnter | bTest | bPrepare | bRelease | bSleep | bAgain | bDone
  /-- Between `begin_op` and `end_op`. -/
  | inOp
  /- `log_write` -/
  | lEnter (b : ℕ) | lTest (b : ℕ) | lDone
  /- `end_op` up to the commit -/
  | eEnter | eTest | eWake | eDone | eCommit
  /- `commit` -/
  | cStart | cLog (tail : ℕ) | cHead | cInstall (tail : ℕ) | cZero | cErase
  /- `end_op` after the commit -/
  | fEnter | fTest | fWake | fDone
  /- `sys_sync` -/
  | sEnter (e : ℕ) | sTest (e : ℕ) | sLoop (e k : ℕ) | sPrepare (e k : ℕ) | sRelease (e k : ℕ)
  | sSleep (e k : ℕ) | sAgain (e k : ℕ) | sDone (e : ℕ)
  deriving DecidableEq, Repr

/-- What a process does next: start an operation or `sync` when it is outside, change a block
or end when it is in an operation. -/
inductive Call
  | op | sync | write (b : ℕ) (v : Block) | done

/-- The search loop of `log_write`: the place of the block, or one place more. -/
def absorb : List ℕ → ℕ → List ℕ
  | [], b => [b]
  | x :: lh, b => if x = b then b :: lh else x :: absorb lh b

theorem absorb_eq (lh : List ℕ) (b : ℕ) : absorb lh b = if b ∈ lh then lh else lh ++ [b] := by
  induction lh with
  | nil => simp [absorb]
  | cons x lh ih =>
    by_cases hx : x = b
    · subst hx
      simp [absorb]
    · simp only [absorb, hx, if_false, ih, List.mem_cons, Ne.symm hx, false_or]
      split <;> simp

variable {lh : List ℕ}

theorem mem_absorb {b x : ℕ} : x ∈ absorb lh b ↔ x ∈ lh ∨ x = b := by
  rw [absorb_eq]
  split
  · constructor
    · exact .inl
    · rintro (hx | rfl)
      · exact hx
      · assumption
  · simp

theorem nodup_absorb (h : lh.Nodup) (b : ℕ) : (absorb lh b).Nodup := by
  rw [absorb_eq]
  split
  · exact h
  · rename_i hb
    exact List.Nodup.append h (List.nodup_singleton b) (by simpa using hb)

theorem length_absorb (lh : List ℕ) (b : ℕ) :
    (absorb lh b).length = lh.length + if b ∈ lh then 0 else 1 := by
  rw [absorb_eq]
  split <;> simp

variable {n : ℕ}

namespace Log

/-- `log.lh.n + (log.outstanding + 1) * MAXOPBLOCKS > LOGBLOCKS` -/
def NoSpace (d : Log n) : Prop := logblocks < d.lh.length + (d.outstanding + 1) * maxopblocks

instance (d : Log n) : Decidable d.NoSpace := inferInstanceAs (Decidable (_ < _))

/-- The operation of `t` is counted. -/
def beginOp (d : Log n) (t : Fin n) : Log n :=
  { d with
    outstanding := d.outstanding + 1
    active := insert t d.active
    wrote := Function.update d.wrote t ∅ }

/-- The process `t` changes the block `b` in its buffer. -/
def change (d : Log n) (t : Fin n) (b : ℕ) (v : Block) : Log n :=
  { d with
    cache := Function.update d.cache b v
    loose := Function.update d.loose t (some b) }

/-- The block `b` gets its place in the header. -/
def note (d : Log n) (t : Fin n) (b : ℕ) : Log n :=
  { d with
    lh := absorb d.lh b
    wrote := Function.update d.wrote t (insert b (d.wrote t))
    loose := Function.update d.loose t none }

/-- The operation of `t` is over. -/
def endOp (d : Log n) (t : Fin n) : Log n :=
  { d with
    outstanding := d.outstanding - 1
    active := d.active.erase t
    ended := d.ended + 1 }

/-- Write the block `b` with the content `v`: into its buffer and to the disk. -/
def bwrite (d : Log n) (b : ℕ) (v : Block) : Log n :=
  { d with
    cache := Function.update d.cache b v
    disk := Function.update d.disk b v }

end Log

/-- The statements. -/
def code (start limit : ℕ) : Code n (Log n) Unit Point Call := fun t p _ x d =>
  match p with
  | .idle =>
    match x with
    | .op => .update d .bEnter
    | .sync => .update d (.sEnter d.ended)
    | _ => .update d .idle
  -- begin_op
  | .bEnter => .acquire .bTest
  | .bTest =>
    if d.committing then .update d .bPrepare
    else if d.NoSpace then .update d .bPrepare
    else .update (d.beginOp t) .bDone
  | .bPrepare => .prepare () .bRelease
  | .bRelease => .release .bSleep
  | .bSleep => .sleep .bAgain
  | .bAgain => .acquire .bTest
  | .bDone => .release .inOp
  | .inOp =>
    match x with
    | .write b v =>
      if (area start).Home b ∧ (b ∈ d.wrote t ∨ (d.wrote t).card < limit) then
        .update (d.change t b v) (.lEnter b)
      else .update d .inOp
    | .done => .update d .eEnter
    | _ => .update d .inOp
  -- log_write
  | .lEnter b => .acquire (.lTest b)
  | .lTest b =>
    -- panic("too big a transaction"), panic("log_write outside of trans")
    if d.lh.length ≥ logblocks then .panic
    else if d.outstanding < 1 then .panic
    else .update (d.note t b) .lDone
  | .lDone => .release .inOp
  -- end_op
  | .eEnter => .acquire .eTest
  | .eTest =>
    -- panic("log.committing")
    if d.committing then .panic
    else if d.outstanding - 1 = 0 then
      .update { d.endOp t with committing := true, committer := some t } .eCommit
    else .update (d.endOp t) .eWake
  | .eWake => .wakeup () .eDone
  | .eDone => .release .idle
  | .eCommit => .release .cStart
  -- commit: write_log, write_head, install_trans(0), write_head
  | .cStart =>
    if d.lh.length > 0 then .update d (.cLog 0) else .update { d with durable := d.ended } .fEnter
  | .cLog tail =>
    match d.lh[tail]? with
    | some b => .update (d.bwrite (start + tail + 1) (d.cache b)) (.cLog (tail + 1))
    | none => .update d .cHead
  | .cHead =>
    -- the commit point
    let d' := d.bwrite start (writeHead d.lh (d.cache start))
    .update { d' with committed := d'.cache, durable := d.ended } (.cInstall 0)
  | .cInstall tail =>
    match d.lh[tail]? with
    | some b => .update (d.bwrite b (d.cache (start + tail + 1))) (.cInstall (tail + 1))
    | none => .update d .cZero
  | .cZero => .update { d with lh := [] } .cErase
  | .cErase => .update (d.bwrite start (writeHead d.lh (d.cache start))) .fEnter
  | .fEnter => .acquire .fTest
  | .fTest =>
    .update { d with committing := false, committer := none, ncommit := d.ncommit + 1 } .fWake
  | .fWake => .wakeup () .fDone
  | .fDone => .release .idle
  -- sys_sync
  | .sEnter e => .acquire (.sTest e)
  | .sTest e =>
    if d.committing = true ∨ d.outstanding > 0 then .update d (.sLoop e (d.ncommit + 1))
    else .update d (.sDone e)
  | .sLoop e k => if d.ncommit < k then .update d (.sPrepare e k) else .update d (.sDone e)
  | .sPrepare e k => .prepare () (.sRelease e k)
  | .sRelease e k => .release (.sSleep e k)
  | .sSleep e k => .sleep (.sAgain e k)
  | .sAgain e k => .acquire (.sLoop e k)
  | .sDone _ => .release .idle

/-! ### What is true at any time -/

variable {start limit : ℕ}

/-- A block that nobody is changing and that is not in the log is on the disk as it is in
the cache, so its buffer may be used for another block. -/
def Clean (start : ℕ) (d : Log n) : Prop :=
  ∀ b, (area start).Home b → b ∉ d.lh → (∀ t, d.loose t ≠ some b) → d.cache b = d.disk b

/-- The log space that the operations in progress may still use. -/
def reserve (active : Finset (Fin n)) (wrote : Fin n → Finset ℕ) : ℕ :=
  ∑ t ∈ active, (maxopblocks - (wrote t).card)

/-- What is true of the log at any time. -/
structure Good (start limit : ℕ) (d : Log n) : Prop where
  count : d.outstanding = d.active.card
  committing : d.committing = true ↔ d.committer ≠ none
  exclusive : d.committer ≠ none → d.active = ∅
  budget : ∀ t ∈ d.active, (d.wrote t).card ≤ limit ∧ ∀ b ∈ d.wrote t, b ∈ d.lh
  space : d.lh.length + reserve d.active d.wrote ≤ logblocks
  nodup : d.lh.Nodup
  home : ∀ b ∈ d.lh, (area start).Home b
  loose : ∀ t b, d.loose t = some b → t ∈ d.active ∧ (area start).Home b ∧
    (b ∈ d.wrote t ∨ (d.wrote t).card < limit)
  redo : ∃ L, (area start).Redo d.disk d.committed L
  quiet : d.committer = none → (area start).Redo d.disk d.committed [] ∧ Clean start d
  drained : d.committer = none → d.active = ∅ → d.lh = [] ∧ d.durable = d.ended
  durable : d.durable ≤ d.ended

section Good

variable {d : Log n} {t : Fin n} {b : ℕ} {active : Finset (Fin n)}

theorem reserve_insert (wrote : Fin n → Finset ℕ) (ht : t ∉ active) :
    reserve (insert t active) (Function.update wrote t ∅) = maxopblocks + reserve active wrote := by
  unfold reserve
  rw [Finset.sum_insert ht, Function.update_self, Finset.card_empty, Nat.sub_zero]
  congr 1
  refine Finset.sum_congr rfl fun t' ht' => ?_
  rw [Function.update_of_ne (ne_of_mem_of_not_mem ht' ht)]

theorem reserve_le (active : Finset (Fin n)) (wrote : Fin n → Finset ℕ) :
    reserve active wrote ≤ active.card * maxopblocks := by
  unfold reserve
  calc ∑ t ∈ active, (maxopblocks - (wrote t).card)
      ≤ ∑ _t ∈ active, maxopblocks := Finset.sum_le_sum fun t _ => Nat.sub_le _ _
    _ = active.card * maxopblocks := by simp

theorem reserve_erase (wrote : Fin n → Finset ℕ) (ht : t ∈ active) :
    (maxopblocks - (wrote t).card) + reserve (active.erase t) wrote = reserve active wrote :=
  Finset.add_sum_erase active (fun t => maxopblocks - (wrote t).card) ht

/-- A block that an operation logs for the first time takes a place that it had left; what
the other operations have left is not touched. -/
theorem reserve_note (wrote : Fin n → Finset ℕ) (ht : t ∈ active)
    (hroom : b ∈ wrote t ∨ (wrote t).card < maxopblocks) :
    reserve active (Function.update wrote t (insert b (wrote t))) +
      (if b ∈ wrote t then 0 else 1) = reserve active wrote := by
  have hrest : reserve (active.erase t) (Function.update wrote t (insert b (wrote t))) =
      reserve (active.erase t) wrote := by
    unfold reserve
    refine Finset.sum_congr rfl fun t' ht' => ?_
    rw [Function.update_of_ne (Finset.ne_of_mem_erase ht')]
  rw [← reserve_erase _ ht, ← reserve_erase wrote ht, hrest, Function.update_self]
  by_cases hb : b ∈ wrote t
  · rw [if_pos hb, Finset.insert_eq_of_mem hb, Nat.add_zero]
  · have hlt := hroom.resolve_left hb
    rw [if_neg hb, Finset.card_insert_of_notMem hb]
    omega

theorem Good.committer_of_not (h : Good start limit d) (hc : d.committing = false) :
    d.committer = none := by
  by_contra hne
  rw [h.committing.mpr hne] at hc
  cases hc

theorem Good.committer_of_active (h : Good start limit d) (ht : t ∈ d.active) :
    d.committer = none := by
  by_contra hne
  rw [h.exclusive hne] at ht
  exact absurd ht (Finset.notMem_empty t)

theorem Good.committing_of_active (h : Good start limit d) (ht : t ∈ d.active) :
    d.committing = false := by
  rw [← Bool.not_eq_true, h.committing, h.committer_of_active ht]
  simp

theorem Good.length_le (h : Good start limit d) : d.lh.length ≤ logblocks :=
  le_trans (Nat.le_add_right _ _) h.space

theorem ne_of_loose {t' : Fin n} (h : d.loose t = none) (hb : d.loose t' = some b) : t' ≠ t := by
  rintro rfl
  rw [h] at hb
  cases hb

/-- An operation in progress finds a free place in the log. -/
theorem Good.length_lt (h : Good start limit d) (hlimit : limit < maxopblocks)
    (ht : t ∈ d.active) : d.lh.length < logblocks := by
  have hsum := reserve_erase d.wrote ht
  have hb := (h.budget t ht).1
  have hs := h.space
  omega

theorem Good.beginOp (h : Good start limit d) (ht : t ∉ d.active) (hc : d.committing = false)
    (hspace : ¬ d.NoSpace) (hloose : d.loose t = none) : Good start limit (d.beginOp t) := by
  have hnone := h.committer_of_not hc
  have hother : ∀ t', t' ≠ t → (d.beginOp t).wrote t' = d.wrote t' := fun t' hne =>
    Function.update_of_ne hne _ _
  refine ⟨?_, h.committing, fun hne => absurd hnone hne, ?_, ?_, h.nodup, h.home, ?_, h.redo,
    h.quiet, fun _ he => ?_, h.durable⟩
  · simp only [Log.beginOp, h.count, Finset.card_insert_of_notMem ht]
  · intro t' ht'
    by_cases he : t' = t
    · subst he
      simp [Log.beginOp]
    · rw [hother t' he]
      exact h.budget t' ((Finset.mem_insert.mp ht').resolve_left he)
  · have hle := reserve_le d.active d.wrote
    have hins := reserve_insert d.wrote ht
    unfold Log.NoSpace at hspace
    rw [h.count] at hspace
    simp only [Log.beginOp, hins]
    rw [Nat.add_mul] at hspace
    omega
  · intro t' b hb
    have hne : t' ≠ t := ne_of_loose hloose hb
    obtain ⟨ha, hh, hw⟩ := h.loose t' b hb
    exact ⟨Finset.mem_insert_of_mem ha, hh, by rwa [hother t' hne]⟩
  · exact absurd he (Finset.insert_ne_empty t d.active)

theorem Good.change (h : Good start limit d) (ht : t ∈ d.active) (hb : (area start).Home b)
    (hw : b ∈ d.wrote t ∨ (d.wrote t).card < limit) (hloose : d.loose t = none)
    (v : Block) : Good start limit (d.change t b v) := by
  refine ⟨h.count, h.committing, h.exclusive, h.budget, h.space, h.nodup, h.home, ?_, h.redo,
    fun hn => ⟨(h.quiet hn).1, ?_⟩, h.drained, h.durable⟩
  · intro t' b' hb'
    by_cases he : t' = t
    · subst he
      simp only [Log.change, Function.update_self, Option.some.injEq] at hb'
      subst hb'
      exact ⟨ht, hb, hw⟩
    · simp only [Log.change, ne_eq, he, not_false_eq_true, Function.update_of_ne] at hb'
      exact h.loose t' b' hb'
  · intro b' hb' hlh hnot
    have hne : b' ≠ b := by
      rintro rfl
      exact hnot t (by simp [Log.change])
    simp only [Log.change, ne_eq, hne, not_false_eq_true, Function.update_of_ne]
    refine (h.quiet hn).2 b' hb' hlh fun t' ht' => ?_
    exact hnot t' (by simpa [Log.change, ne_of_loose hloose ht'] using ht')

theorem Good.note (h : Good start limit d) (hlimit : limit < maxopblocks)
    (hloose : d.loose t = some b) : Good start limit (d.note t b) := by
  obtain ⟨ht, hb, hw⟩ := h.loose t b hloose
  have hbudget := h.budget t ht
  have hcard : (insert b (d.wrote t)).card ≤ limit := by
    rcases hw with hw | hw
    · rw [Finset.insert_eq_of_mem hw]
      exact hbudget.1
    · exact (Finset.card_insert_le b (d.wrote t)).trans hw
  refine ⟨h.count, h.committing, h.exclusive, ?_, ?_, nodup_absorb h.nodup b, ?_, ?_, h.redo,
    fun hn => ⟨(h.quiet hn).1, ?_⟩, fun _ he => ?_, h.durable⟩
  · intro t' ht'
    by_cases he : t' = t
    · subst he
      refine ⟨by simpa [Log.note] using hcard, fun x hx => mem_absorb.mpr ?_⟩
      simp only [Log.note, Function.update_self, Finset.mem_insert] at hx
      exact hx.elim .inr fun hx => .inl (hbudget.2 x hx)
    · simp only [Log.note, ne_eq, he, not_false_eq_true, Function.update_of_ne]
      obtain ⟨h₁, h₂⟩ := h.budget t' ht'
      exact ⟨h₁, fun x hx => mem_absorb.mpr (.inl (h₂ x hx))⟩
  · -- a block that is new in the log is new for the operation
    have hsum := reserve_note d.wrote ht (hw.imp_right (·.trans hlimit))
    have hs := h.space
    have hone : (if b ∈ d.lh then 0 else 1) ≤ if b ∈ d.wrote t then 0 else 1 := by
      by_cases hx : b ∈ d.wrote t
      · simp [hx, hbudget.2 b hx]
      · rw [if_neg hx]
        split <;> omega
    simp only [Log.note, length_absorb]
    omega
  · intro x hx
    rcases mem_absorb.mp hx with hx | rfl
    · exact h.home x hx
    · exact hb
  · intro t' b' hb'
    by_cases he : t' = t
    · subst he
      simp [Log.note] at hb'
    · simp only [Log.note, ne_eq, he, not_false_eq_true, Function.update_of_ne] at hb' ⊢
      exact h.loose t' b' hb'
  · intro b' hb' hnot hfree
    obtain ⟨hlh, hne⟩ := not_or.mp (mem_absorb.not.mp hnot)
    refine (h.quiet hn).2 b' hb' hlh fun t' ht' => ?_
    by_cases he : t' = t
    · subst he
      rw [hloose, Option.some.injEq] at ht'
      exact hne ht'.symm
    · exact hfree t' (by simpa [Log.note, he] using ht')
  · rw [show (d.note t b).active = d.active from rfl] at he
    rw [he] at ht
    exact absurd ht (Finset.notMem_empty t)

theorem Good.erase_eq_empty_iff (h : Good start limit d) (ht : t ∈ d.active) :
    d.active.erase t = ∅ ↔ d.outstanding - 1 = 0 := by
  rw [← Finset.card_eq_zero, Finset.card_erase_of_mem ht, h.count]

/-- An operation ends; the process goes on to commit if it was the last one. -/
theorem Good.endOp (h : Good start limit d) (ht : t ∈ d.active) (hloose : d.loose t = none)
    {committing : Bool} {committer : Option (Fin n)} (hc : committing = true ↔ committer ≠ none)
    (hlast : committer ≠ none ↔ d.outstanding - 1 = 0) :
    Good start limit { d.endOp t with committing, committer } := by
  rw [← h.erase_eq_empty_iff ht] at hlast
  have hsum := reserve_erase d.wrote ht
  have hs := h.space
  refine ⟨?_, hc, hlast.mp, ?_, ?_, h.nodup, h.home, ?_, h.redo,
    fun _ => h.quiet (h.committer_of_active ht), fun hn he => absurd hn (hlast.mpr he),
    Nat.le_succ_of_le h.durable⟩
  · simp only [Log.endOp, h.count, Finset.card_erase_of_mem ht]
  · intro t' ht'
    exact h.budget t' (Finset.mem_of_mem_erase ht')
  · simp only [Log.endOp]
    omega
  · intro t' b hb
    have hne : t' ≠ t := ne_of_loose hloose hb
    obtain ⟨ha, hrest⟩ := h.loose t' b hb
    exact ⟨Finset.mem_erase.mpr ⟨hne, ha⟩, hrest⟩

/-- When the last operation ends, no block is changed and not logged. -/
theorem Good.loose_of_last (h : Good start limit d) (ht : t ∈ d.active) (hloose : d.loose t = none)
    (hlast : d.outstanding - 1 = 0) (t' : Fin n) : d.loose t' = none := by
  by_cases he : t' = t
  · rw [he, hloose]
  · rw [Option.eq_none_iff_forall_ne_some]
    intro b hb
    have hmem := Finset.mem_erase.mpr ⟨he, (h.loose t' b hb).1⟩
    rw [(h.erase_eq_empty_iff ht).mpr hlast] at hmem
    exact absurd hmem (Finset.notMem_empty t')

/-- What the committing process does to the blocks. -/
theorem Good.commit (h : Good start limit d) (hc : d.committer = some t)
    {cache disk committed : ℕ → Block} {durable : ℕ} (hlh : lh = d.lh ∨ lh = [])
    (hredo : ∃ L, (area start).Redo disk committed L) (hdurable : durable ≤ d.ended) :
    Good start limit { d with lh, cache, disk, committed, durable } := by
  have hne : d.committer ≠ none := by simp [hc]
  have hempty := h.exclusive hne
  refine ⟨h.count, h.committing, h.exclusive, ?_, ?_, ?_, ?_, h.loose, hredo,
    fun hn => absurd hn hne, fun hn => absurd hn hne, hdurable⟩
  · intro t' ht'
    rw [show _ = d.active from rfl, hempty] at ht'
    exact absurd ht' (Finset.notMem_empty t')
  · have hs := h.space
    simp only [hempty, reserve, Finset.sum_empty] at hs ⊢
    rcases hlh with rfl | rfl
    · exact hs
    · exact Nat.zero_le _
  · rcases hlh with rfl | rfl
    · exact h.nodup
    · exact List.nodup_nil
  · rcases hlh with rfl | rfl
    · exact h.home
    · intro b hb
      exact absurd hb List.not_mem_nil

/-- The commit is over. -/
theorem Good.finish (h : Good start limit d) (hlh : d.lh = [])
    (hredo : (area start).Redo d.disk d.committed [])
    (hsame : ∀ b, (area start).Home b → d.cache b = d.disk b) (hdurable : d.durable = d.ended) :
    Good start limit { d with committing := false, committer := none, ncommit := d.ncommit + 1 } :=
  ⟨h.count, by simp, fun hne => absurd rfl hne, h.budget, h.space, h.nodup, h.home, h.loose,
    h.redo, fun _ => ⟨hredo, fun b hb _ _ => hsame b hb⟩, fun _ _ => ⟨hlh, hdurable⟩, h.durable⟩

end Good

end Logging
end Xv6
end RuShell
