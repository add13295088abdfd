import RuShell.Snoop.Model
import RuShell.Lib.Lists
import Mathlib.Data.Finset.Card
import Mathlib.Data.List.Nodup

/-!
# The table of `snoop`

What `trace_loop` leaves in its table, for a process whose stops come as `ptrace`
documents them: entries and exits of system calls in turn, with signals and plain traps
anywhere in between.  The loop sees no difference between an entry and an exit; it has to
keep its flag in step with the process through all other stops.

The specification is the list of the calls that have been completed, in that order.

## Main definitions

* `Stop`, `alternates` — the stops of a process, and the order they come in.
* `completed` — the calls that have been completed, with their durations.
* `rank` — how many different calls were completed before a number's first one.
* `Tallies` — the table against the list of the calls.

## Main results

* `Tallies.record` — one more call.
* `traceLoop_tallies` — the loop, from any state that is in step with the process.
* `trace_loop_histogram` — **the table is the histogram of the completed calls, and
  every signal is passed on once**.
-/

namespace RuShell
namespace Snoop

variable {τ δ : Type}

/-! ### The stops of a process -/

/-- A signal that is delivered to the process. -/
abbrev Signal := {sig : ℕ // 0 < sig ∧ sig ≠ sigtrap ∧ sig ≠ sigtrap ||| 0x80}

/-- A stop of the process that is traced. -/
inductive Stop (τ : Type)
  | entry (sysNo : ℤ) (now : τ)
  | exit (sysNo : ℤ) (now : τ)
  | signal (sig : Signal) (now : τ)
  | trap (now : τ)

/-- Entries and exits come in turn; `inside` says whether an exit is the next one. -/
def alternates : Bool → List (Stop τ) → Bool
  | _, [] => true
  | inside, .signal _ _ :: stops => alternates inside stops
  | inside, .trap _ :: stops => alternates inside stops
  | inside, .entry _ _ :: stops => !inside && alternates true stops
  | inside, .exit _ _ :: stops => inside && alternates false stops

/-- What `waitpid` and `PTRACE_GETREGS` say about a stop. -/
def Stop.round : Stop τ → Round τ
  | .entry sysNo now => .stopped (sigtrap ||| 0x80) (some sysNo) now
  | .exit sysNo now => .stopped (sigtrap ||| 0x80) (some sysNo) now
  | .signal sig now => .stopped sig.val none now
  | .trap now => .stopped sigtrap none now

/-- The signal that has to be passed on behind a stop, 0 if there is none. -/
def Stop.signalled : Stop τ → ℕ
  | .signal sig _ => sig.val
  | _ => 0

/-- The calls that are completed, in order, with their numbers at entry and their
durations; `pending` is the call that has been entered. -/
def completed (timespecDiff : τ → τ → δ) : Option (ℤ × τ) → List (Stop τ) → List (ℤ × δ)
  | _, [] => []
  | pending, .signal _ _ :: stops => completed timespecDiff pending stops
  | pending, .trap _ :: stops => completed timespecDiff pending stops
  | _, .entry sysNo now :: stops => completed timespecDiff (some (sysNo, now)) stops
  | some (sysNo, start), .exit _ now :: stops =>
    (sysNo, timespecDiff start now) :: completed timespecDiff none stops
  | none, .exit _ _ :: stops => completed timespecDiff none stops

/-! ### The specification of the table -/

/-- The calls with a number. -/
def durations (done : List (ℤ × δ)) (sysNo : ℤ) : List δ :=
  (done.filter fun c => c.1 == sysNo).map Prod.snd

/-- How many different calls are completed before the first one with this number. -/
def rank (done : List (ℤ × δ)) (sysNo : ℤ) : ℕ :=
  ((done.map Prod.fst).takeWhile fun n => n ≠ sysNo).toFinset.card

/-- A slot that is right about its calls. -/
structure Exact [Zero δ] [Add δ] (done : List (ℤ × δ)) (st : SyscallStat δ) : Prop where
  calls : st.calls = wrap 64 (durations done st.sysNo).length
  totalTime : st.totalTime = (durations done st.sysNo).foldl (· + ·) 0
  firstOrder : st.firstOrder = rank done st.sysNo

/-- The table holds exactly these calls. -/
structure Tallies [Zero δ] [Add δ] (done : List (ℤ × δ)) (s : Stats δ) : Prop where
  nodup : (s.slots.map (·.sysNo)).Nodup
  mem : ∀ n, n ∈ s.slots.map (·.sysNo) ↔ n ∈ done.map Prod.fst
  exact : ∀ st ∈ s.slots, Exact done st
  counter : s.orderCounter = s.slots.length
  ranks : s.slots.map (·.firstOrder) = (List.range s.slots.length).map Int.ofNat

section Lists

variable {done : List (ℤ × δ)} {n m : ℤ} {d : δ}

theorem durations_snoc_self : durations (done ++ [(n, d)]) n = durations done n ++ [d] := by
  simp [durations]

theorem durations_snoc_of_ne (h : n ≠ m) : durations (done ++ [(n, d)]) m = durations done m := by
  simp [durations, h]

theorem durations_of_notMem (h : n ∉ done.map Prod.fst) : durations done n = [] := by
  unfold durations
  rw [List.filter_eq_nil_iff.mpr, List.map_nil]
  intro c hc
  simp only [beq_iff_eq]
  rintro rfl
  exact h (List.mem_map_of_mem hc)

/-- Later calls do not change the rank of a number that has been seen. -/
theorem rank_snoc (h : m ∈ done.map Prod.fst) : rank (done ++ [(n, d)]) m = rank done m := by
  unfold rank
  rw [List.map_append, List.takeWhile_append]
  have hne : ¬ ((done.map Prod.fst).takeWhile fun n => n ≠ m).length =
      (done.map Prod.fst).length := by
    intro hlen
    have hall := List.takeWhile_eq_self_iff.mp (List.IsPrefix.eq_of_length
      (List.takeWhile_prefix _) hlen) m h
    simp at hall
  rw [if_neg hne]

/-- The rank of a number that comes for the first time. -/
theorem rank_snoc_new (h : n ∉ done.map Prod.fst) :
    rank (done ++ [(n, d)]) n = (done.map Prod.fst).toFinset.card := by
  have hself : (done.map Prod.fst).takeWhile (fun k => k ≠ n) = done.map Prod.fst := by
    rw [List.takeWhile_eq_self_iff]
    intro k hk
    exact decide_eq_true fun hkn => h (hkn ▸ hk)
  unfold rank
  rw [List.map_append, List.takeWhile_append, hself, if_pos rfl]
  simp

/-- The slot for a number, in a table without repetitions. -/
theorem modify_findIdx {f : SyscallStat δ → SyscallStat δ} {l : List (SyscallStat δ)} {i : ℕ}
    (hnodup : (l.map (·.sysNo)).Nodup) (hi : l.findIdx? (fun st => st.sysNo == n) = some i) :
    l.modify i f = l.map fun st => if st.sysNo = n then f st else st := by
  induction l generalizing i with
  | nil => cases hi
  | cons st l ih =>
    rw [List.map_cons, List.nodup_cons] at hnodup
    rw [List.findIdx?_cons] at hi
    by_cases hst : st.sysNo = n
    · rw [if_pos (by simpa using hst)] at hi
      cases hi
      have hrest : (l.map fun st => if st.sysNo = n then f st else st) = l := by
        refine (List.map_congr_left fun st' hst' => ?_).trans (List.map_id l)
        have hne : st'.sysNo ≠ n := by
          intro heq
          exact hnodup.1 (hst.trans heq.symm ▸ List.mem_map_of_mem hst')
        rw [if_neg hne]
        rfl
      rw [List.map_cons, if_pos hst, hrest]
      rfl
    · rw [if_neg (by simpa using hst)] at hi
      obtain ⟨j, hj, rfl⟩ := Option.map_eq_some_iff.mp hi
      rw [List.map_cons, if_neg hst, List.modify_succ_cons, ih hnodup.2 hj]

end Lists

/-! ### One more call -/

section Record

variable [Zero δ] [Add δ] {s : Stats δ} {done : List (ℤ × δ)} {n : ℤ} {d : δ} {st : SyscallStat δ}

/-- A table has as many slots as there are different numbers. -/
theorem Tallies.length_eq (h : Tallies done s) :
    s.slots.length = (done.map Prod.fst).toFinset.card := by
  have hset : (s.slots.map (·.sysNo)).toFinset = (done.map Prod.fst).toFinset := by
    ext k
    rw [List.mem_toFinset, List.mem_toFinset]
    exact h.mem k
  rw [← hset, List.toFinset_card_of_nodup h.nodup, List.length_map]

/-- The slots when the number has been seen. -/
theorem record_eq_map (h : Tallies done s) (hn : n ∈ done.map Prod.fst) :
    record s n d =
      { s with slots := s.slots.map fun st => if st.sysNo = n then st.bump d else st } := by
  obtain ⟨st, hst, hstn⟩ := List.mem_map.mp ((h.mem n).mpr hn)
  unfold record getStatSlot
  cases hi : s.slots.findIdx? fun st => st.sysNo == n with
  | none =>
    rw [List.findIdx?_eq_none_iff] at hi
    exact absurd hstn (by simpa using hi st hst)
  | some i =>
    simp only
    rw [modify_findIdx h.nodup hi]

/-- The slots when it has not, and there is room. -/
theorem record_eq_concat (h : Tallies done s) (hn : n ∉ done.map Prod.fst)
    (hroom : s.slots.length < maxSyscalls) :
    record s n d =
      { slots := s.slots ++ [SyscallStat.bump d ⟨n, 0, 0, s.orderCounter⟩]
        orderCounter := s.orderCounter + 1 } := by
  have hnone : s.slots.findIdx? (fun st => st.sysNo == n) = none := by
    rw [List.findIdx?_eq_none_iff]
    intro st hst
    simp only [beq_eq_false_iff_ne]
    intro heq
    exact hn ((h.mem n).mp (heq ▸ List.mem_map_of_mem hst))
  have hcounter : wrap 32 (s.orderCounter + 1) = s.orderCounter + 1 := by
    have hlen := h.counter
    unfold maxSyscalls at hroom
    apply wrap_of_fits (by decide)
    · omega
    · omega
  unfold record getStatSlot
  rw [hnone]
  simp only [if_neg (Nat.not_le.mpr hroom), hcounter]
  rw [Lib.modify_length_concat]

theorem wrap_succ (k : ℕ) : wrap 64 (wrap 64 k + 1) = wrap 64 ((k + 1 : ℕ) : ℤ) := by
  unfold wrap
  push_cast
  exact Int.bmod_add_bmod

/-- A slot that was right is so after one more call with its number. -/
theorem Exact.bump (h : Exact done st) (hst : st.sysNo ∈ done.map Prod.fst) :
    Exact (done ++ [(st.sysNo, d)]) (st.bump d) where
  calls := by
    change wrap 64 (st.calls + 1) = wrap 64 (durations (done ++ [(st.sysNo, d)]) st.sysNo).length
    rw [durations_snoc_self, h.calls, List.length_append, List.length_singleton, wrap_succ]
  totalTime := by
    change st.totalTime + d = (durations (done ++ [(st.sysNo, d)]) st.sysNo).foldl (· + ·) 0
    rw [durations_snoc_self, h.totalTime, List.foldl_append]
    rfl
  firstOrder := by
    change st.firstOrder = rank (done ++ [(st.sysNo, d)]) st.sysNo
    rw [rank_snoc hst, h.firstOrder]

/-- A slot is not concerned by calls with other numbers. -/
theorem Exact.other (h : Exact done st) (hst : st.sysNo ∈ done.map Prod.fst)
    (hne : n ≠ st.sysNo) : Exact (done ++ [(n, d)]) st where
  calls := by rw [durations_snoc_of_ne hne, h.calls]
  totalTime := by rw [durations_snoc_of_ne hne, h.totalTime]
  firstOrder := by rw [rank_snoc hst, h.firstOrder]

section Seen

variable (h : Tallies done s) (hn : n ∈ done.map Prod.fst)
include h hn

/-- One more call with a number that has a slot. -/
theorem Tallies.record_of_mem : Tallies (done ++ [(n, d)]) (record s n d) := by
  have hseen : ∀ st ∈ s.slots, st.sysNo ∈ done.map Prod.fst := fun st hst =>
    (h.mem _).mp (List.mem_map_of_mem hst)
  have hnos : (s.slots.map fun st => if st.sysNo = n then st.bump d else st).map (·.sysNo) =
      s.slots.map (·.sysNo) := by
    rw [List.map_map]
    refine List.map_congr_left fun st _ => ?_
    simp only [Function.comp_apply]
    split <;> rfl
  have horders : (s.slots.map fun st => if st.sysNo = n then st.bump d else st).map
      (·.firstOrder) = s.slots.map (·.firstOrder) := by
    rw [List.map_map]
    refine List.map_congr_left fun st _ => ?_
    simp only [Function.comp_apply]
    split <;> rfl
  rw [record_eq_map h hn]
  refine ⟨hnos ▸ h.nodup, fun k => ?_, fun st' hst' => ?_, ?_, ?_⟩
  · rw [hnos, h.mem k, List.map_append, List.mem_append]
    refine ⟨Or.inl, fun hk => hk.elim id fun hkn => ?_⟩
    rw [List.mem_singleton.mp hkn]
    exact hn
  · obtain ⟨st, hst, rfl⟩ := List.mem_map.mp hst'
    split
    · rename_i hstn
      subst hstn
      exact (h.exact st hst).bump (hseen st hst)
    · rename_i hstn
      exact (h.exact st hst).other (hseen st hst) fun heq => hstn heq.symm
  · rw [List.length_map]
    exact h.counter
  · rw [horders, List.length_map]
    exact h.ranks

end Seen

section New

variable (h : Tallies done s) (hn : n ∉ done.map Prod.fst)
include h hn

/-- The numbers up to a new one. -/
theorem card_snoc_new : ((done ++ [(n, d)]).map Prod.fst).toFinset.card = s.slots.length + 1 := by
  have hnew : n ∉ (done.map Prod.fst).toFinset := by rwa [List.mem_toFinset]
  have hinsert : ((done ++ [(n, d)]).map Prod.fst).toFinset =
      insert n (done.map Prod.fst).toFinset := by
    rw [List.map_append, List.toFinset_append, Finset.union_comm]
    rfl
  rw [hinsert, Finset.card_insert_of_notMem hnew, h.length_eq]

/-- The slot of a new number. -/
theorem exact_new : Exact (done ++ [(n, d)]) (SyscallStat.bump d ⟨n, 0, 0, s.orderCounter⟩) where
  calls := by
    change wrap 64 (0 + 1) = wrap 64 (durations (done ++ [(n, d)]) n).length
    rw [durations_snoc_self, durations_of_notMem hn]
    rfl
  totalTime := by
    change 0 + d = (durations (done ++ [(n, d)]) n).foldl (· + ·) 0
    rw [durations_snoc_self, durations_of_notMem hn]
    rfl
  firstOrder := by
    change s.orderCounter = rank (done ++ [(n, d)]) n
    rw [rank_snoc_new hn, h.counter, h.length_eq]

/-- One more call with a number that has no slot yet. -/
theorem Tallies.record_of_notMem (hroom : s.slots.length < maxSyscalls) :
    Tallies (done ++ [(n, d)]) (record s n d) := by
  have hseen : ∀ st ∈ s.slots, st.sysNo ∈ done.map Prod.fst := fun st hst =>
    (h.mem _).mp (List.mem_map_of_mem hst)
  have hfresh : ∀ st ∈ s.slots, n ≠ st.sysNo := by
    rintro st hst rfl
    exact hn (hseen st hst)
  rw [record_eq_concat h hn hroom]
  refine ⟨?_, fun k => ?_, fun st' hst' => ?_, ?_, ?_⟩
  · rw [List.map_append, List.nodup_append]
    refine ⟨h.nodup, List.nodup_singleton _, ?_⟩
    intro a ha b hb
    obtain ⟨st, hst, rfl⟩ := List.mem_map.mp ha
    rw [List.mem_singleton.mp hb]
    exact (hfresh st hst).symm
  · rw [List.map_append, List.map_append, List.mem_append, List.mem_append, h.mem k]
    rfl
  · rcases List.mem_append.mp hst' with hst | hst
    · exact (h.exact st' hst).other (hseen st' hst) (hfresh st' hst)
    · rw [List.mem_singleton.mp hst]
      exact exact_new h hn
  · change s.orderCounter + 1 = ((s.slots ++ [_]).length : ℤ)
    rw [List.length_append, List.length_singleton, h.counter]
    push_cast
    rfl
  · rw [List.map_append, h.ranks, List.length_append, List.length_singleton, List.range_succ,
      List.map_append]
    congr 1
    change [s.orderCounter] = [(s.slots.length : ℤ)]
    rw [h.counter]

end New

/-- **One more call**: if the table has room for all numbers, it stays right. -/
theorem Tallies.record (h : Tallies done s)
    (hroom : ((done ++ [(n, d)]).map Prod.fst).toFinset.card ≤ maxSyscalls) :
    Tallies (done ++ [(n, d)]) (record s n d) := by
  by_cases hn : n ∈ done.map Prod.fst
  · exact h.record_of_mem hn
  · rw [card_snoc_new h hn] at hroom
    exact h.record_of_notMem hn hroom

end Record

/-! ### The loop -/

section Loop

variable [Zero δ] [Add δ] {timespecDiff : τ → τ → δ} {s : Trace τ δ} {done : List (ℤ × δ)}
  {pending : Option (ℤ × τ)}

/-- The loop is in step with the process: its flag says whether a call is pending, and it
has saved the number and the time of that call. -/
structure InStep (pending : Option (ℤ × τ)) (done : List (ℤ × δ)) (s : Trace τ δ) : Prop where
  flag : s.inSyscall = pending.isSome
  saved : ∀ sysNo start, pending = some (sysNo, start) →
    s.curSysNo = sysNo ∧ s.entryTime = start
  tallies : Tallies done s.stats

theorem inStep_start (t : τ) :
    InStep none ([] : List (ℤ × δ)) ({ entryTime := t } : Trace τ δ) where
  flag := rfl
  saved := by
    intro sysNo start h
    cases h
  tallies := ⟨List.nodup_nil, fun _ => Iff.rfl, fun _ hst => absurd hst List.not_mem_nil, rfl, rfl⟩

/-- Passing on a signal does not concern the calls. -/
theorem InStep.pass (h : InStep pending done s) (sig : ℕ) (passed : List ℕ) :
    InStep pending done { s with sig := sig, passed := passed } :=
  ⟨h.flag, h.saved, h.tallies⟩

/-- A call is entered. -/
theorem InStep.entry (h : InStep none done s) (sysNo : ℤ) (now : τ) :
    InStep (some (sysNo, now)) done
      { s with curSysNo := sysNo, entryTime := now, inSyscall := true } := by
  refine ⟨rfl, ?_, h.tallies⟩
  intro sysNo' start heq
  cases heq
  exact ⟨rfl, rfl⟩

/-- The call that was entered last is completed. -/
theorem InStep.exit {no : ℤ} {start : τ} (h : InStep (some (no, start)) done s) (now : τ)
    (hfits : ((done ++ [(no, timespecDiff start now)]).map Prod.fst).toFinset.card ≤
      maxSyscalls) :
    InStep (none : Option (ℤ × τ)) (done ++ [(no, timespecDiff start now)])
      { s with
        stats := record s.stats s.curSysNo (timespecDiff s.entryTime now)
        inSyscall := false } := by
  obtain ⟨hno, hstart⟩ := h.saved no start rfl
  refine ⟨rfl, ?_, ?_⟩
  · intro sysNo' start' heq
    cases heq
  · rw [hno, hstart]
    exact h.tallies.record hfits

section OnStop

variable (sysNo : ℤ) (now : τ)

theorem onStop_entry (hflag : s.inSyscall = false) :
    onStop timespecDiff s (sigtrap ||| 0x80) (some sysNo) now =
      some { s with curSysNo := sysNo, entryTime := now, inSyscall := true } := by
  simp [onStop, hflag]

theorem onStop_exit (hflag : s.inSyscall = true) :
    onStop timespecDiff s (sigtrap ||| 0x80) (some sysNo) now =
      some { s with
        stats := record s.stats s.curSysNo (timespecDiff s.entryTime now)
        inSyscall := false } := by
  simp [onStop, hflag]

theorem onStop_signal (sig : Signal) :
    onStop timespecDiff s sig.val none now = some { s with sig := sig.val } := by
  simp [onStop, sig.property.2.1, sig.property.2.2]

theorem onStop_trap : onStop timespecDiff s sigtrap none now = some s := by
  simp [onStop, sigtrap]

end OnStop

/-- A round in which the process stops. -/
theorem traceLoop_stopped {stopsig : ℕ} {origRax : Option ℤ} {now : τ} {rounds : List (Round τ)}
    {s' : Trace τ δ}
    (h : onStop timespecDiff { s with passed := s.passed ++ [s.sig], sig := 0 } stopsig origRax
      now = some s') :
    traceLoop timespecDiff (.stopped stopsig origRax now :: rounds) s =
      traceLoop timespecDiff rounds s' := by
  simp only [traceLoop, h]

/-- **The loop keeps in step.**  From any state that is in step with the process, what the
process does until it terminates is added to the table, and what signals it gets are
passed on, each in the round behind its stop. -/
theorem traceLoop_tallies (stops : List (Stop τ)) (after : List (Round τ))
    (h : InStep pending done s) (halt : alternates pending.isSome stops = true)
    (hroom : ((done ++ completed timespecDiff pending stops).map Prod.fst).toFinset.card ≤
      maxSyscalls) :
    Tallies (done ++ completed timespecDiff pending stops)
        (traceLoop timespecDiff (stops.map Stop.round ++ .terminated :: after) s).stats ∧
      (traceLoop timespecDiff (stops.map Stop.round ++ .terminated :: after) s).passed =
        s.passed ++ s.sig :: stops.map Stop.signalled := by
  induction stops generalizing s done pending with
  | nil =>
    rw [completed, List.append_nil]
    exact ⟨h.tallies, rfl⟩
  | cons stop stops ih =>
    have hpassed : s.passed ++ s.sig :: (stop :: stops).map Stop.signalled =
        (s.passed ++ [s.sig]) ++ stop.signalled :: stops.map Stop.signalled := by simp
    rw [hpassed, List.map_cons, List.cons_append]
    cases stop with
    | signal sig now =>
      rw [Stop.round, traceLoop_stopped (onStop_signal now sig)]
      exact ih (h.pass _ _) halt hroom
    | trap now =>
      rw [Stop.round, traceLoop_stopped (onStop_trap now)]
      exact ih (h.pass _ _) halt hroom
    | entry sysNo now =>
      rw [alternates, Bool.and_eq_true, Bool.not_eq_true'] at halt
      obtain ⟨hout, halt⟩ := halt
      obtain rfl : pending = none := Option.not_isSome_iff_eq_none.mp (by simp [hout])
      rw [Stop.round, traceLoop_stopped (onStop_entry sysNo now h.flag)]
      exact ih ((h.pass _ _).entry sysNo now) halt hroom
    | exit sysNo now =>
      rw [alternates, Bool.and_eq_true] at halt
      obtain ⟨hin, halt⟩ := halt
      obtain ⟨⟨no, start⟩, rfl⟩ := Option.isSome_iff_exists.mp hin
      rw [completed, List.append_cons] at hroom ⊢
      have hfits : ((done ++ [(no, timespecDiff start now)]).map Prod.fst).toFinset.card ≤
          maxSyscalls := by
        refine le_trans (Finset.card_le_card fun k hk => ?_) hroom
        rw [List.mem_toFinset] at hk ⊢
        exact List.map_subset _ (List.subset_append_left _ _) hk
      rw [Stop.round, traceLoop_stopped (onStop_exit sysNo now h.flag)]
      exact ih ((h.pass _ _).exit now hfits) halt hroom

end Loop

/-! ### The whole trace -/

section Trace

variable [Zero δ] [Add δ] {s : Stats δ} {done : List (ℤ × δ)} {st : SyscallStat δ}

/-- A number has one slot. -/
theorem Tallies.countP_eq_one (h : Tallies done s) {n : ℤ} (hn : n ∈ done.map Prod.fst) :
    s.slots.countP (fun st => st.sysNo == n) = 1 := by
  have hcount : (s.slots.map (·.sysNo)).count n = 1 :=
    List.count_eq_one_of_mem h.nodup ((h.mem n).mpr hn)
  rw [List.count, List.countP_map] at hcount
  exact hcount

/-- The count of the calls, as long as a `long` can hold it. -/
theorem Exact.calls_eq (h : Exact done st)
    (hfits : (durations done st.sysNo).length < 2 ^ 63) :
    st.calls = (durations done st.sysNo).length := by
  rw [h.calls]
  apply wrap_of_fits (by decide)
  · omega
  · exact_mod_cast hfits

/-- **The table of `snoop` is the histogram of the completed calls.**  For every process
that terminates and whose entries and exits come in turn: each number that has been
completed has one slot and no other number has any; a slot holds the number of its
calls, the sum of their durations and the rank of its first completion; the ranks are
0, 1, 2 and so on in the order of the table; and each call of `PTRACE_SYSCALL` passes on
the signal of the stop before it, and nothing if there was none. -/
theorem trace_loop_histogram (timespecDiff : τ → τ → δ) (t : τ) (stops : List (Stop τ))
    (after : List (Round τ)) (halt : alternates false stops = true)
    (hroom : ((completed timespecDiff none stops).map Prod.fst).toFinset.card ≤ maxSyscalls) :
    let r := traceLoop timespecDiff (stops.map Stop.round ++ .terminated :: after)
      ({ entryTime := t } : Trace τ δ)
    let done := completed timespecDiff none stops
    (∀ n ∈ done.map Prod.fst, r.stats.slots.countP (fun st => st.sysNo == n) = 1) ∧
    (∀ st ∈ r.stats.slots, st.sysNo ∈ done.map Prod.fst ∧
      st.calls = wrap 64 (durations done st.sysNo).length ∧
      ((durations done st.sysNo).length < 2 ^ 63 →
        st.calls = (durations done st.sysNo).length) ∧
      st.totalTime = (durations done st.sysNo).foldl (· + ·) 0 ∧
      st.firstOrder = rank done st.sysNo) ∧
    r.stats.slots.map (·.firstOrder) = (List.range r.stats.slots.length).map Int.ofNat ∧
    r.passed = 0 :: stops.map Stop.signalled := by
  intro r done
  obtain ⟨htallies, hpassed⟩ := traceLoop_tallies stops after (inStep_start t) halt hroom
  rw [List.nil_append] at htallies
  refine ⟨fun n hn => htallies.countP_eq_one hn, fun st hst => ?_, htallies.ranks, hpassed⟩
  have hexact := htallies.exact st hst
  exact ⟨(htallies.mem _).mp (List.mem_map_of_mem hst), hexact.calls, hexact.calls_eq,
    hexact.totalTime, hexact.firstOrder⟩

/-- `write`, interrupted by a `SIGCHLD`, `read`, a trap, and `write` again. -/
def writeReadWrite : List (Stop ℕ) :=
  [.entry 1 10, .signal ⟨17, by decide⟩ 11, .exit 1 12, .entry 0 13, .exit 0 20, .trap 21,
    .entry 1 22, .exit 1 25, .entry 60 26]

theorem trace_loop_histogram_writeReadWrite :
    (traceLoop (fun a b => b - a) (writeReadWrite.map Stop.round ++ [.terminated])
        ({ entryTime := 0 } : Trace ℕ ℕ)).stats.slots =
      [⟨1, 2, 5, 0⟩, ⟨0, 1, 7, 1⟩] ∧
    (traceLoop (fun a b => b - a) (writeReadWrite.map Stop.round ++ [.terminated])
        ({ entryTime := 0 } : Trace ℕ ℕ)).passed = [0, 0, 17, 0, 0, 0, 0, 0, 0, 0] := by
  have h := trace_loop_histogram (fun a b => b - a) 0 writeReadWrite [] (by decide) (by decide)
  exact ⟨by decide, h.2.2.2⟩

end Trace

end Snoop
end RuShell
