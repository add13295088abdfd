import RuShell.Segment
import RuShell.Lib.Slots

/-!
# The arrays of the segment loop

`Segment` keeps the stages of a segment as lists.  The source keeps them in
local arrays of 64 stages with 100 slots each, uninitialised at first, and walks
the tokens by following pointers; it trusts the parser for the word behind a
redirection and its own counters for the bounds.  This module has the loops of
`main` with every such access checked.

A token pointer is the list that starts at it, so a missing token is the empty
list, and following it is a fault.

## Main definitions

* `Frame` — the local arrays of one segment, with the counters `s` and `argc`.
* `innerLoop`, `segmentBody`, `mainLoop` — the loops over the arrays.
* `Stored`, `Represents` — the lists that are in the arrays.

## Main results

* `innerLoop_represents` — the two inner loops stay together.
* `mainLoop_eq_runLine` — the loop over the arrays computes what the loop over
  lists does.
* `mainLoop_safe` — **the segmenter stays in bounds on every accepted line.**
-/

namespace RuShell
namespace Segment

open RuShell.Parser RuShell.Lib

/-! ### The arrays -/

/-- The indices of `[MAX_STAGES]`. -/
def StageRoom (s : ℕ) : Prop := s < maxStages

/-- The indices of `[MAX_STAGES][MAX_ARGS]`. -/
def SlotRoom (p : ℕ × ℕ) : Prop := p.1 < maxStages ∧ p.2 < maxArgs

instance : DecidablePred StageRoom := fun s => inferInstanceAs (Decidable (s < maxStages))

instance : DecidablePred SlotRoom := fun p =>
  inferInstanceAs (Decidable (p.1 < maxStages ∧ p.2 < maxArgs))

/-- The local variables of one segment.  A pointer to a string is `none` when it
is `NULL`. -/
structure Frame where
  /-- `stage_argv` -/
  stageArgv : Slots SlotRoom (Option Str) := .blank
  /-- `stage_input_files` -/
  stageInputFiles : Slots SlotRoom (Option Str) := .blank
  /-- `stage_input_count` -/
  stageInputCount : Slots StageRoom ℕ := .blank
  /-- `stage_output_files` -/
  stageOutputFiles : Slots SlotRoom (Option Str) := .blank
  /-- `stage_append_flags` -/
  stageAppendFlags : Slots SlotRoom Bool := .blank
  /-- `stage_output_count` -/
  stageOutputCount : Slots StageRoom ℕ := .blank
  /-- The stage being filled. -/
  s : ℕ := 0
  /-- The words it has so far. -/
  argc : ℕ := 0

/-- `value` of a token, `NULL` for an operator. -/
def tokenValue : Token → Option Str
  | .word w => some w
  | _ => none

/-- `type == TOK_WORD` -/
def isWord : Token → Bool
  | .word _ => true
  | _ => false

namespace Frame

/-- `stage_input_count[s] = 0; stage_output_count[s] = 0;` -/
def openStage (f : Frame) : Except Fault Frame := do
  let inputs ← f.stageInputCount.write f.s 0
  let outputs ← f.stageOutputCount.write f.s 0
  return { f with stageInputCount := inputs, stageOutputCount := outputs }

/-- `stage_argv[s][argc] = NULL;` -/
def endArgv (f : Frame) : Except Fault Frame := do
  let argv ← f.stageArgv.write (f.s, f.argc) none
  return { f with stageArgv := argv }

/-- `if (argc < MAX_ARGS - 1) stage_argv[s][argc++] = cur->value;` -/
def storeArg (f : Frame) (value : Option Str) : Except Fault Frame := do
  if f.argc < maxArgs - 1 then
    let argv ← f.stageArgv.write (f.s, f.argc) value
    return { f with stageArgv := argv, argc := f.argc + 1 }
  else return f

/-- The file behind a `<`, dropped when the array is full. -/
def storeInput (f : Frame) (value : Option Str) : Except Fault Frame := do
  let count ← f.stageInputCount.read f.s
  if count < maxArgs - 1 then
    let files ← f.stageInputFiles.write (f.s, count) value
    let counts ← f.stageInputCount.write f.s (count + 1)
    return { f with stageInputFiles := files, stageInputCount := counts }
  else return f

/-- The file behind a `>` or a `>>`, dropped when the arrays are full. -/
def storeOutput (f : Frame) (value : Option Str) (app : Bool) : Except Fault Frame := do
  let count ← f.stageOutputCount.read f.s
  if count < maxArgs - 1 then
    let files ← f.stageOutputFiles.write (f.s, count) value
    let flags ← f.stageAppendFlags.write (f.s, count) app
    let counts ← f.stageOutputCount.write f.s (count + 1)
    return { f with
      stageOutputFiles := files, stageAppendFlags := flags, stageOutputCount := counts }
  else return f

/-- The branch of a `|`; `none` where `pipeline_syntax_error` is set. -/
def nextStage (f : Frame) : Except Fault (Option Frame) := do
  let f ← f.endArgv
  if f.argc = 0 then return none
  else if maxStages ≤ f.s + 1 then return none
  else
    let f ← openStage { f with s := f.s + 1, argc := 0 }
    return some f

end Frame

/-! ### The loops -/

/-- The inner loop over the tokens of one segment; `none` where
`pipeline_syntax_error` is set. -/
def innerLoop : TokenList → Frame → Except Fault (Option (Frame × TokenList))
  | [], f => .ok (some (f, []))
  | t :: rest, f =>
    if t = .eof ∨ t = .semi ∨ t = .amp then .ok (some (f, t :: rest))
    else if t = .pipe then do
      match ← f.nextStage with
      | none => return none
      | some f => innerLoop rest f
    else if t = .lt then
      -- `cur = cur->next`, whose `value` and `next` are then read
      match rest with
      | [] => .error .nullPointer
      | u :: rest => do innerLoop rest (← f.storeInput (tokenValue u))
    else if t = .gt then
      match rest with
      | [] => .error .nullPointer
      | u :: rest => do innerLoop rest (← f.storeOutput (tokenValue u) false)
    else if t = .gtgt then
      match rest with
      | [] => .error .nullPointer
      | u :: rest => do innerLoop rest (← f.storeOutput (tokenValue u) true)
    else if isWord t then do innerLoop rest (← f.storeArg (tokenValue t))
    else .error .unreachable

theorem innerLoop_stop {t : Token} (h : t = .eof ∨ t = .semi ∨ t = .amp) (rest : TokenList)
    (f : Frame) : innerLoop (t :: rest) f = .ok (some (f, t :: rest)) := by
  rw [innerLoop.eq_def]
  exact if_pos h

theorem innerLoop_pipe (rest : TokenList) (f : Frame) :
    innerLoop (.pipe :: rest) f = f.nextStage >>= fun
      | none => pure none
      | some f => innerLoop rest f := by
  rw [innerLoop.eq_def]
  simp

theorem innerLoop_lt (w : Str) (rest : TokenList) (f : Frame) :
    innerLoop (.lt :: .word w :: rest) f = f.storeInput (some w) >>= innerLoop rest := by
  rw [innerLoop.eq_def]
  simp [tokenValue]

theorem innerLoop_gt (w : Str) (rest : TokenList) (f : Frame) :
    innerLoop (.gt :: .word w :: rest) f = f.storeOutput (some w) false >>= innerLoop rest := by
  rw [innerLoop.eq_def]
  simp [tokenValue]

theorem innerLoop_gtgt (w : Str) (rest : TokenList) (f : Frame) :
    innerLoop (.gtgt :: .word w :: rest) f = f.storeOutput (some w) true >>= innerLoop rest := by
  rw [innerLoop.eq_def]
  simp [tokenValue]

theorem innerLoop_word (w : Str) (rest : TokenList) (f : Frame) :
    innerLoop (.word w :: rest) f = f.storeArg (some w) >>= innerLoop rest := by
  rw [innerLoop.eq_def]
  simp [tokenValue, isWord]

/-- The words of `stage_argv[i]` from the slot `j` on, up to the `NULL`; `n` is
the number of slots left in the row. -/
def loadArgv (f : Frame) (i : ℕ) : ℕ → ℕ → Except Fault (List Str)
  | 0, _ => .error .outOfRange
  | n + 1, j => do
    match ← f.stageArgv.read (i, j) with
    | none => return []
    | some w => return w :: (← loadArgv f i n (j + 1))

/-- A file name of the stage `i`. -/
def loadFile (files : Slots SlotRoom (Option Str)) (i j : ℕ) : Except Fault Str := do
  match ← files.read (i, j) with
  | none => .error .nullPointer
  | some w => return w

/-- The stage `i` as its executor reads it: the words up to the `NULL`, and as
many files as the counters say. -/
def loadStage (f : Frame) (i : ℕ) : Except Fault CommandStage := do
  let args ← loadArgv f i maxArgs 0
  let inputs ← (List.range (← f.stageInputCount.read i)).mapM (loadFile f.stageInputFiles i)
  let outputs ← (List.range (← f.stageOutputCount.read i)).mapM fun j => do
    return (← loadFile f.stageOutputFiles i j, ← f.stageAppendFlags.read (i, j))
  return ⟨args, inputs, outputs⟩

/-- One pass of the outer loop up to the dispatch: the stages that are handed
over and the token behind them, or `none` where `pipeline_syntax_error` is set. -/
def segmentBody (toks : TokenList) : Except Fault (Option (List CommandStage × TokenList)) := do
  match ← innerLoop toks (← Frame.openStage {}) with
  | none => return none
  | some (f, at_) =>
    let f ← f.endArgv
    let numStages := if f.argc = 0 then 0 else f.s + 1
    let stages ← (List.range numStages).mapM (loadStage f)
    return some (stages, at_)

variable {at_ toks : TokenList} {f f' : Frame} {st cur : CommandStage} {done : List CommandStage}
  {i : ℕ}

theorem innerLoop_length (h : innerLoop toks f = .ok (some (f', at_))) :
    at_.length ≤ toks.length := by
  fun_induction innerLoop toks f with
  | case1 | case2 => simp_all
  | case3 rest f _ ih =>
    obtain ⟨g, hg, h⟩ := bind_eq_ok h
    cases g with
    | none => cases h
    | some g => exact (ih g h).trans (by simp)
  | case4 | case6 | case8 | case11 => cases h
  | case5 f u rest _ _ ih | case7 f u rest _ _ _ ih | case9 f u rest _ _ _ _ ih =>
    obtain ⟨g, -, h⟩ := bind_eq_ok h
    exact (ih g h).trans (by simp; omega)
  | case10 t rest f _ _ _ _ _ _ ih =>
    obtain ⟨g, -, h⟩ := bind_eq_ok h
    exact (ih g h).trans (by simp)

theorem segmentBody_length {stages : List CommandStage}
    (h : segmentBody toks = .ok (some (stages, at_))) : at_.length ≤ toks.length := by
  obtain ⟨f, -, h⟩ := bind_eq_ok h
  obtain ⟨r, hr, h⟩ := bind_eq_ok h
  cases r with
  | none => cases h
  | some r =>
    obtain ⟨g, at'⟩ := r
    obtain ⟨g', -, h⟩ := bind_eq_ok h
    obtain ⟨sts, -, h⟩ := bind_eq_ok h
    cases h
    exact innerLoop_length hr

/-- The loop over the segments.  `results k` is what the executor of the `k`-th
dispatch of the line returns. -/
def mainLoop (results : ℕ → ℤ) (toks : TokenList) (k : ℕ) : Except Fault LineRun :=
  if _h : toks = [] ∨ toks.head? = some .eof then .ok {}
  else
    match _hs : segmentBody toks with
    | .error e => .error e
    | .ok none => .ok { printed := Lexer.lexError }
    | .ok (some (stages, at_)) =>
      if stages = [] then mainLoop results (nextSegment at_) k
      else
        let d : Dispatch := ⟨stages, executorOf stages (at_.head? = some .amp)⟩
        if d.executor.stops (results k) then .ok { dispatches := [d] }
        else do
          let r ← mainLoop results (nextSegment at_) (k + 1)
          return { r with dispatches := d :: r.dispatches }
termination_by toks.length
decreasing_by
  all_goals
    refine nextSegment_length (segmentBody_length ‹_›) ?_
    rw [List.length_pos_iff]
    exact fun h => ‹¬ _› (Or.inl h)

/-! ### Lists in the arrays -/

/-- The row `i` of an array holds the list, each entry as `g` of it. -/
def Row {α β : Type} (a : Slots SlotRoom β) (g : α → β) (i : ℕ) (l : List α) : Prop :=
  ∀ j w, l[j]? = some w → a.Holds (i, j) (g w)

/-- One more entry is written behind the others. -/
theorem Row.snoc {α β : Type} {a a' : Slots SlotRoom β} {g : α → β} {l : List α} {w : α}
    (h : Row a g i l) (hnew : a'.Holds (i, l.length) (g w))
    (hold : ∀ j v, j ≠ (i, l.length) → a.Holds j v → a'.Holds j v) : Row a' g i (l ++ [w]) := by
  intro j u hu
  rcases getElem?_concat_cases hu with hu | ⟨rfl, rfl⟩
  · have hlt : j < l.length := (List.getElem?_eq_some_iff.mp hu).1
    exact hold _ _ (by simp [hlt.ne]) (h j u hu)
  · exact hnew

/-- The row `i` of the arrays holds the stage `st`, the `NULL` apart. -/
structure Stored (f : Frame) (i : ℕ) (st : CommandStage) : Prop where
  /-- The words. -/
  args : Row f.stageArgv some i st.args
  /-- The input files. -/
  inputs : Row f.stageInputFiles some i st.inputFiles
  /-- The output files. -/
  outputs : Row f.stageOutputFiles (fun w => some w.1) i st.outputFiles
  /-- The flags of the output files. -/
  flags : Row f.stageAppendFlags Prod.snd i st.outputFiles
  /-- The number of input files. -/
  inputCount : f.stageInputCount.Holds i st.inputFiles.length
  /-- The number of output files. -/
  outputCount : f.stageOutputCount.Holds i st.outputFiles.length
  /-- There is room for the `NULL`. -/
  argsRoom : st.args.length < maxArgs

/-- What the row `i` holds is still there. -/
structure KeepsRow (f f' : Frame) (i : ℕ) : Prop where
  args : ∀ j v, f.stageArgv.Holds (i, j) v → f'.stageArgv.Holds (i, j) v := by exact fun _ _ h => h
  inputs : ∀ j v, f.stageInputFiles.Holds (i, j) v → f'.stageInputFiles.Holds (i, j) v := by
    exact fun _ _ h => h
  outputs : ∀ j v, f.stageOutputFiles.Holds (i, j) v → f'.stageOutputFiles.Holds (i, j) v := by
    exact fun _ _ h => h
  flags : ∀ j v, f.stageAppendFlags.Holds (i, j) v → f'.stageAppendFlags.Holds (i, j) v := by
    exact fun _ _ h => h
  inputCount : ∀ v, f.stageInputCount.Holds i v → f'.stageInputCount.Holds i v := by
    exact fun _ h => h
  outputCount : ∀ v, f.stageOutputCount.Holds i v → f'.stageOutputCount.Holds i v := by
    exact fun _ h => h

theorem Stored.keep (h : Stored f i st) (hk : KeepsRow f f' i) :
    Stored f' i st where
  args j w hw := hk.args j _ (h.args j w hw)
  inputs j w hw := hk.inputs j _ (h.inputs j w hw)
  outputs j w hw := hk.outputs j _ (h.outputs j w hw)
  flags j w hw := hk.flags j _ (h.flags j w hw)
  inputCount := hk.inputCount _ h.inputCount
  outputCount := hk.outputCount _ h.outputCount
  argsRoom := h.argsRoom

/-- The frame holds the closed stages `done`, each with its `NULL`, and is
filling `cur`. -/
structure Represents (f : Frame) (done : List CommandStage) (cur : CommandStage) : Prop where
  /-- The stage being filled comes behind the closed ones. -/
  s : f.s = done.length
  /-- The word counter. -/
  argc : f.argc = cur.args.length
  /-- There is room for the stage. -/
  room : done.length < maxStages
  /-- The closed stages. -/
  closed : ∀ i st, done[i]? = some st →
    Stored f i st ∧ f.stageArgv.Holds (i, st.args.length) none
  /-- The stage being filled. -/
  current : Stored f done.length cur

/-- A step that fills the current stage and keeps the rows before it. -/
theorem Represents.fill {cur' : CommandStage} (h : Represents f done cur)
    (hs : f'.s = f.s) (hargc : f'.argc = cur'.args.length)
    (hrows : ∀ i, i ≠ f.s → KeepsRow f f' i) (hcur : Stored f' f.s cur') :
    Represents f' done cur' where
  s := hs.trans h.s
  argc := hargc
  room := h.room
  closed i st hi := by
    have hlt : i < done.length := (List.getElem?_eq_some_iff.mp hi).1
    have hk : KeepsRow f f' i := hrows i (by rw [h.s]; omega)
    obtain ⟨hst, hnull⟩ := h.closed i st hi
    exact ⟨hst.keep hk, hk.args _ _ hnull⟩
  current := h.s ▸ hcur

/-! ### The steps of the inner loop -/

theorem Represents.storeArg (h : Represents f done cur) (w : Str) :
    ∃ f', f.storeArg (some w) = .ok f' ∧ Represents f' done (cur.addArg w) := by
  unfold Frame.storeArg CommandStage.addArg
  rw [h.argc]
  split_ifs with hlt
  · have hroom : SlotRoom (f.s, cur.args.length) := ⟨h.s ▸ h.room, by omega⟩
    obtain ⟨argv, hw, hnew, hold⟩ := Slots.write_of_room hroom f.stageArgv (some w)
    refine ⟨{ f with stageArgv := argv, argc := cur.args.length + 1 }, by rw [hw]; rfl, ?_⟩
    have hcur := h.s ▸ h.current
    refine h.fill rfl (by simp) ?_ ?_
    · intro i hi
      exact { args := fun j v hv => hold _ v (by simp [hi]) hv }
    · refine { hcur with args := hcur.args.snoc hnew hold, argsRoom := ?_ }
      simp only [List.length_append, List.length_singleton]
      omega
  · exact ⟨f, rfl, h⟩

theorem Represents.storeInput (h : Represents f done cur) (w : Str) :
    ∃ f', f.storeInput (some w) = .ok f' ∧ Represents f' done (cur.addInput w) := by
  have hcur := h.s ▸ h.current
  unfold Frame.storeInput CommandStage.addInput
  rw [Slots.read_of_holds hcur.inputCount]
  simp only [bind, Except.bind]
  split_ifs with hlt
  · have hroom : SlotRoom (f.s, cur.inputFiles.length) := ⟨h.s ▸ h.room, by omega⟩
    obtain ⟨files, hw, hnew, hold⟩ := Slots.write_of_room hroom f.stageInputFiles (some w)
    obtain ⟨counts, hc, hcnew, hcold⟩ := Slots.write_of_room hcur.inputCount.1 f.stageInputCount
      (cur.inputFiles.length + 1)
    refine ⟨{ f with stageInputFiles := files, stageInputCount := counts },
      by rw [hw]; simp only [hc]; rfl, ?_⟩
    refine h.fill rfl h.argc ?_ ?_
    · intro i hi
      exact { inputs := fun j v hv => hold _ v (by simp [hi]) hv
              inputCount := fun v => hcold i v hi }
    · refine { hcur with inputs := hcur.inputs.snoc hnew hold, inputCount := ?_ }
      rw [List.length_append, List.length_singleton]
      exact hcnew
  · exact ⟨f, rfl, h⟩

theorem Represents.storeOutput (h : Represents f done cur) (w : Str) (app : Bool) :
    ∃ f', f.storeOutput (some w) app = .ok f' ∧ Represents f' done (cur.addOutput w app) := by
  have hcur := h.s ▸ h.current
  unfold Frame.storeOutput CommandStage.addOutput
  rw [Slots.read_of_holds hcur.outputCount]
  simp only [bind, Except.bind]
  split_ifs with hlt
  · have hroom : SlotRoom (f.s, cur.outputFiles.length) := ⟨h.s ▸ h.room, by omega⟩
    obtain ⟨files, hw, hnew, hold⟩ := Slots.write_of_room hroom f.stageOutputFiles (some w)
    obtain ⟨flags, hg, hgnew, hgold⟩ := Slots.write_of_room hroom f.stageAppendFlags app
    obtain ⟨counts, hc, hcnew, hcold⟩ := Slots.write_of_room hcur.outputCount.1 f.stageOutputCount
      (cur.outputFiles.length + 1)
    refine ⟨{ f with
      stageOutputFiles := files, stageAppendFlags := flags, stageOutputCount := counts },
      by rw [hw]; simp only [hg, hc]; rfl, ?_⟩
    refine h.fill rfl h.argc ?_ ?_
    · intro i hi
      exact { outputs := fun j v hv => hold _ v (by simp [hi]) hv
              flags := fun j v hv => hgold _ v (by simp [hi]) hv
              outputCount := fun v => hcold i v hi }
    · refine { hcur with outputs := hcur.outputs.snoc hnew hold
                         flags := hcur.flags.snoc hgnew hgold, outputCount := ?_ }
      rw [List.length_append, List.length_singleton]
      exact hcnew
  · exact ⟨f, rfl, h⟩

/-- The `NULL` goes behind the words of the current stage. -/
theorem Represents.endArgv (h : Represents f done cur) :
    ∃ f', f.endArgv = .ok f' ∧ Represents f' done cur ∧
      f'.stageArgv.Holds (done.length, cur.args.length) none := by
  have hcur := h.s ▸ h.current
  have hroom : SlotRoom (f.s, f.argc) := ⟨h.s ▸ h.room, h.argc ▸ hcur.argsRoom⟩
  obtain ⟨argv, hw, hnew, hold⟩ := Slots.write_of_room hroom f.stageArgv none
  refine ⟨{ f with stageArgv := argv }, by rw [Frame.endArgv, hw]; rfl, ?_, ?_⟩
  · refine h.fill rfl h.argc ?_ ?_
    · intro i hi
      exact { args := fun j v hv => hold _ v (by simp [hi]) hv }
    · refine { hcur with args := fun j u hu => ?_ }
      have hj : j < cur.args.length := (List.getElem?_eq_some_iff.mp hu).1
      exact hold _ _ (by simp [h.argc]; omega) (hcur.args j u hu)
  · rw [← h.s, ← h.argc]
    exact hnew

/-- A new stage starts empty. -/
theorem openStage_stored (hs : f.s < maxStages) :
    ∃ f', f.openStage = .ok f' ∧ f'.s = f.s ∧ f'.argc = f.argc ∧
      f'.stageArgv = f.stageArgv ∧ (∀ i, i ≠ f.s → KeepsRow f f' i) ∧ Stored f' f.s {} := by
  have hroom : StageRoom f.s := hs
  obtain ⟨ins, hi, hinew, hiold⟩ := Slots.write_of_room hroom f.stageInputCount 0
  obtain ⟨outs, ho, honew, hoold⟩ := Slots.write_of_room hroom f.stageOutputCount 0
  refine ⟨{ f with stageInputCount := ins, stageOutputCount := outs },
    by rw [Frame.openStage, hi]; simp only [bind, Except.bind, ho]; rfl, rfl, rfl, rfl, ?_, ?_⟩
  · intro i hne
    exact { inputCount := fun v => hiold i v hne, outputCount := fun v => hoold i v hne }
  · exact ⟨by simp [Row], by simp [Row], by simp [Row], by simp [Row], hinew, honew, by decide⟩

/-- The branch of a `|`. -/
theorem Represents.nextStage (h : Represents f done cur) :
    if cur.args = [] ∨ maxStages ≤ done.length + 1 then f.nextStage = .ok none
    else ∃ f', f.nextStage = .ok (some f') ∧ Represents f' (done ++ [cur]) {} := by
  obtain ⟨f1, hf1, h1, hnull⟩ := h.endArgv
  have hargc : f1.argc = 0 ↔ cur.args = [] := by rw [h1.argc, List.length_eq_zero_iff]
  unfold Frame.nextStage
  rw [hf1]
  simp only [bind, Except.bind, hargc, h1.s]
  by_cases hempty : cur.args = []
  · rw [if_pos (.inl hempty), if_pos hempty]
    rfl
  rw [if_neg hempty]
  by_cases hfull : maxStages ≤ done.length + 1
  · rw [if_pos (.inr hfull), if_pos hfull]
    rfl
  rw [if_neg (not_or.mpr ⟨hempty, hfull⟩), if_neg hfull]
  -- the stage that was filled becomes the last of the closed ones
  obtain ⟨f2, hf2, hs, hc, hargv, hrows, hst⟩ :=
    openStage_stored (f := { f1 with s := done.length + 1, argc := 0 }) (by simpa using hfull)
  have hclosed : ∀ i st, Stored f1 i st → i ≠ done.length + 1 → Stored f2 i st := by
    intro i st hi hne
    have hi' : Stored { f1 with s := done.length + 1, argc := 0 } i st := { hi with }
    exact hi'.keep (hrows i hne)
  refine ⟨f2, by rw [hf2]; rfl, ?_, ?_, ?_, ?_, ?_⟩
  · rw [hs, List.length_append, List.length_singleton]
  · exact hc
  · rw [List.length_append, List.length_singleton]
    omega
  · intro i st hi
    rw [hargv]
    rcases getElem?_concat_cases hi with hi | ⟨rfl, rfl⟩
    · have hlt : i < done.length := (List.getElem?_eq_some_iff.mp hi).1
      obtain ⟨hst, hn⟩ := h1.closed i st hi
      exact ⟨hclosed i st hst (by omega), hn⟩
    · exact ⟨hclosed _ _ h1.current (by omega), hnull⟩
  · rw [List.length_append, List.length_singleton]
    exact hst

/-- The two inner loops stay together. -/
theorem innerLoop_represents (toks : TokenList) (done : List CommandStage) (cur : CommandStage) :
    ∀ f, Represents f done cur →
      match segmentLoop toks done cur with
      | .fault => True
      | .syntaxError => innerLoop toks f = .ok none
      | .stop done' cur' at_ =>
        ∃ f', innerLoop toks f = .ok (some (f', at_)) ∧ Represents f' done' cur' := by
  fun_induction segmentLoop toks done cur with
  | case1 => exact fun f h => ⟨f, rfl, h⟩
  | case2 | case3 | case4 => exact fun f h => ⟨f, innerLoop_stop (by simp) _ f, h⟩
  | case5 rest done cur hempty =>
    intro f h
    have hn := h.nextStage
    rw [if_pos (.inl hempty)] at hn
    show innerLoop (.pipe :: rest) f = .ok none
    rw [innerLoop_pipe, hn]
    rfl
  | case6 rest done cur _ hfull =>
    intro f h
    have hn := h.nextStage
    rw [if_pos (.inr hfull)] at hn
    show innerLoop (.pipe :: rest) f = .ok none
    rw [innerLoop_pipe, hn]
    rfl
  | case7 rest done cur hempty hfull ih =>
    intro f h
    have hn := h.nextStage
    rw [if_neg (not_or.mpr ⟨hempty, hfull⟩)] at hn
    obtain ⟨f', hf', h'⟩ := hn
    rw [innerLoop_pipe, hf']
    exact ih f' h'
  | case8 w rest done cur ih =>
    intro f h
    obtain ⟨f', hf', h'⟩ := h.storeInput w
    rw [innerLoop_lt, hf']
    exact ih f' h'
  | case9 | case11 | case13 => exact fun f h => trivial
  | case10 w rest done cur ih =>
    intro f h
    obtain ⟨f', hf', h'⟩ := h.storeOutput w false
    rw [innerLoop_gt, hf']
    exact ih f' h'
  | case12 w rest done cur ih =>
    intro f h
    obtain ⟨f', hf', h'⟩ := h.storeOutput w true
    rw [innerLoop_gtgt, hf']
    exact ih f' h'
  | case14 w rest done cur ih =>
    intro f h
    obtain ⟨f', hf', h'⟩ := h.storeArg w
    rw [innerLoop_word, hf']
    exact ih f' h'

/-! ### Handing the stages over -/

/-- Words up to a `NULL` are read back. -/
theorem loadArgv_eq_ok {l : List Str} :
    ∀ {n j : ℕ}, (∀ k w, l[k]? = some w → f.stageArgv.Holds (i, j + k) (some w)) →
      f.stageArgv.Holds (i, j + l.length) none → l.length < n → loadArgv f i n j = .ok l := by
  induction l with
  | nil =>
    intro n j _ hnull hn
    cases n with
    | zero => exact absurd hn (Nat.not_lt_zero _)
    | succ n =>
      have hread : f.stageArgv.read (i, j) = .ok none := Slots.read_of_holds hnull
      rw [loadArgv, hread]
      rfl
  | cons w l ih =>
    intro n j hwords hnull hn
    cases n with
    | zero => exact absurd hn (Nat.not_lt_zero _)
    | succ n =>
      have hrest : loadArgv f i n (j + 1) = .ok l := by
        apply ih
        · intro k u hu
          rw [Nat.add_assoc, Nat.add_comm 1 k]
          exact hwords (k + 1) u hu
        · rw [Nat.add_assoc, Nat.add_comm 1 l.length]
          exact hnull
        · exact Nat.lt_of_succ_lt_succ hn
      have hread : f.stageArgv.read (i, j) = .ok (some w) :=
        Slots.read_of_holds (hwords 0 w rfl)
      rw [loadArgv, hread]
      simp only [bind, Except.bind, hrest]
      rfl

theorem loadFile_eq_ok {files : Slots SlotRoom (Option Str)} {j : ℕ} {w : Str}
    (h : files.Holds (i, j) (some w)) : loadFile files i j = .ok w := by
  rw [loadFile, Slots.read_of_holds h]
  rfl

/-- A stored stage with its `NULL` is handed over as it is. -/
theorem Stored.load (h : Stored f i st)
    (hnull : f.stageArgv.Holds (i, st.args.length) none) : loadStage f i = .ok st := by
  have hargs : loadArgv f i maxArgs 0 = .ok st.args :=
    loadArgv_eq_ok (by simpa [Row] using h.args) (by simpa using hnull) h.argsRoom
  have hin := mapM_range_eq_ok (g := loadFile f.stageInputFiles i) (l := st.inputFiles)
    fun j w hw => loadFile_eq_ok (h.inputs j w hw)
  have hout := mapM_range_eq_ok (l := st.outputFiles)
    (g := fun j => do
      return (← loadFile f.stageOutputFiles i j, ← f.stageAppendFlags.read (i, j)))
    fun j w hw => by
      simp only [loadFile_eq_ok (h.outputs j w hw), Slots.read_of_holds (h.flags j w hw)]
      rfl
  unfold loadStage
  simp only [bind, Except.bind] at hout
  simp only [hargs, Slots.read_of_holds h.inputCount, Slots.read_of_holds h.outputCount, bind,
    Except.bind, hin, hout]
  rfl

/-- The frame at the start of a segment. -/
theorem exists_openStage :
    ∃ f, Frame.openStage {} = .ok f ∧ Represents f [] {} := by
  obtain ⟨f, hf, hs, hargc, -, -, hst⟩ := openStage_stored (f := {}) (by decide)
  refine ⟨f, hf, hs, hargc, by decide, ?_, hst⟩
  intro i st hi
  simp at hi

theorem segmentBody_of_syntaxError (hseg : segmentLoop toks [] {} = .syntaxError) :
    segmentBody toks = .ok none := by
  obtain ⟨f, hf, hrep⟩ := exists_openStage
  have hloop := innerLoop_represents toks [] {} f hrep
  rw [hseg] at hloop
  rw [segmentBody, hf]
  simp only [bind, Except.bind, hloop]
  rfl

/-- One pass of the outer loop over the arrays hands over the stages that the
pass over lists closes. -/
theorem segmentBody_of_stop (hseg : segmentLoop toks [] {} = .stop done cur at_) :
    segmentBody toks = .ok (some (closeStages done cur, at_)) := by
  obtain ⟨f, hf, hrep⟩ := exists_openStage
  have hloop := innerLoop_represents toks [] {} f hrep
  rw [hseg] at hloop
  obtain ⟨f1, hf1, h1⟩ := hloop
  obtain ⟨f2, hf2, h2, hnull⟩ := h1.endArgv
  -- the row of the last stage has its `NULL` now, like the rows before it
  have hload : ∀ i st, (done ++ [cur])[i]? = some st → loadStage f2 i = .ok st := by
    intro i st hi
    rcases getElem?_concat_cases hi with hi | ⟨rfl, rfl⟩
    · exact (h2.closed i st hi).1.load (h2.closed i st hi).2
    · exact h2.current.load hnull
  have hall := mapM_range_eq_ok hload
  rw [List.length_append, List.length_singleton] at hall
  rw [segmentBody, hf]
  simp only [bind, Except.bind, hf1, hf2, h2.argc, h2.s, List.length_eq_zero_iff, closeStages]
  split_ifs with hempty
  · rfl
  · simp only [hall]
    rfl

/-! ### The whole line -/

theorem mainLoop_of_none (hstart : ¬ (toks = [] ∨ toks.head? = some .eof))
    (h : segmentBody toks = .ok none) (results : ℕ → ℤ) (k : ℕ) :
    mainLoop results toks k = .ok { printed := Lexer.lexError } := by
  rw [mainLoop, dif_neg hstart]
  split
  · next h' => simp [h] at h'
  · rfl
  · next h' => simp [h] at h'

theorem mainLoop_of_some {stages : List CommandStage}
    (hstart : ¬ (toks = [] ∨ toks.head? = some .eof))
    (h : segmentBody toks = .ok (some (stages, at_))) (results : ℕ → ℤ) (k : ℕ) :
    mainLoop results toks k =
      if stages = [] then mainLoop results (nextSegment at_) k
      else
        let d : Dispatch := ⟨stages, executorOf stages (at_.head? = some .amp)⟩
        if d.executor.stops (results k) then .ok { dispatches := [d] }
        else do
          let r ← mainLoop results (nextSegment at_) (k + 1)
          return { r with dispatches := d :: r.dispatches } := by
  rw [mainLoop, dif_neg hstart]
  split
  · next h' => simp [h] at h'
  · next h' => simp [h] at h'
  · next stages' at' h' =>
    rw [h, Except.ok.injEq, Option.some.injEq, Prod.mk.injEq] at h'
    obtain ⟨rfl, rfl⟩ := h'
    rfl

/-- **The loop over the arrays computes what the loop over lists does**, as long
as that one does not run into a fault. -/
theorem mainLoop_eq_runLine (results : ℕ → ℤ) (toks : TokenList) (k : ℕ)
    (hfault : (runLine results toks k).fault = false) :
    mainLoop results toks k = .ok (runLine results toks k) := by
  fun_induction runLine results toks k with
  | case1 toks k hend => rw [mainLoop, dif_pos hend]
  | case2 toks k hend hseg => simp at hfault
  | case3 toks k hend hseg =>
    exact mainLoop_of_none hend (segmentBody_of_syntaxError hseg) results k
  | case4 toks k hend done cur at_ hseg stages hnone ih =>
    rw [mainLoop_of_some hend (segmentBody_of_stop hseg), if_pos hnone, ih hfault]
  | case5 toks k hend done cur at_ hseg stages hsome d hstop =>
    rw [mainLoop_of_some hend (segmentBody_of_stop hseg), if_neg hsome]
    exact if_pos hstop
  | case6 toks k hend done cur at_ hseg stages hsome d hgo r ih =>
    rw [mainLoop_of_some hend (segmentBody_of_stop hseg), if_neg hsome]
    show (if d.executor.stops (results k) then _ else _) = _
    rw [if_neg hgo, ih hfault]
    rfl

/-! ### What the parser guarantees -/

/-- An operator other than `&` that the parser has passed has a word behind it. -/
theorem parseLoop_word {t : Token} {rest : TokenList}
    (ht : t = .lt ∨ t = .gt ∨ t = .gtgt ∨ t = .semi ∨ t = .pipe)
    (h : parseLoop (t :: rest) = true) :
    ∃ w rest', rest = .word w :: rest' ∧ parseLoop rest' = true := by
  cases rest with
  | nil => rcases ht with rfl | rfl | rfl | rfl | rfl <;> cases h
  | cons u us =>
    cases u with
    | word w => rcases ht with rfl | rfl | rfl | rfl | rfl <;> exact ⟨w, us, rfl, h⟩
    | _ => rcases ht with rfl | rfl | rfl | rfl | rfl <;> cases h

/-- What follows a `&` is accepted as a line of its own. -/
theorem parseValidate_of_amp {rest : TokenList} (h : parseLoop (.amp :: rest) = true) :
    parseValidate rest = true := by
  cases rest with
  | nil => rfl
  | cons u us =>
    cases u with
    | word w => exact h
    | eof => rfl
    | _ => cases h

/-- In an accepted line the inner loop finds every word it looks for, and stops
in front of an accepted line. -/
theorem segmentLoop_accepted (done : List CommandStage) (cur : CommandStage)
    (h : parseLoop toks = true) :
    match segmentLoop toks done cur with
    | .fault => False
    | .syntaxError => True
    | .stop _ _ at_ => parseValidate (nextSegment at_) = true := by
  fun_induction segmentLoop toks done cur with
  | case1 | case2 => rfl
  | case3 rest done cur =>
    obtain ⟨w, rest', rfl, h⟩ := parseLoop_word (by simp) h
    exact h
  | case4 rest done cur => exact parseValidate_of_amp h
  | case5 | case6 => trivial
  | case7 rest done cur _ _ ih =>
    obtain ⟨w, rest', rfl, h⟩ := parseLoop_word (by simp) h
    exact ih h
  | case8 w rest done cur ih | case10 w rest done cur ih | case12 w rest done cur ih
  | case14 w rest done cur ih => exact ih h
  | case9 rest done cur hne | case11 rest done cur hne | case13 rest done cur hne =>
    obtain ⟨w, rest', rfl, -⟩ := parseLoop_word (by simp) h
    exact hne w rest' rfl

/-- A line that has not ended and is accepted is accepted by the loop. -/
theorem parseLoop_of_parseValidate (hstart : ¬ (toks = [] ∨ toks.head? = some .eof))
    (h : parseValidate toks = true) :
    parseLoop toks = true := by
  cases toks with
  | nil => simp at hstart
  | cons t rest =>
    cases t with
    | word w => exact h
    | eof => simp at hstart
    | _ => cases h

/-- An accepted line runs into no fault. -/
theorem runLine_accepted (results : ℕ → ℤ) (toks : TokenList) (k : ℕ)
    (h : parseValidate toks = true) : (runLine results toks k).fault = false := by
  fun_induction runLine results toks k with
  | case1 | case3 | case5 => rfl
  | case2 toks k hend hseg =>
    have hacc := segmentLoop_accepted [] {} (parseLoop_of_parseValidate hend h)
    rw [hseg] at hacc
    exact hacc.elim
  | case4 toks k hend done cur at_ hseg stages hnone ih
  | case6 toks k hend done cur at_ hseg stages hsome d hgo r ih =>
    have hacc := segmentLoop_accepted [] {} (parseLoop_of_parseValidate hend h)
    rw [hseg] at hacc
    exact ih hacc

/-! ### What is handed over -/

/-- A stage whose counters are below the size of their arrays. -/
def Within (st : CommandStage) : Prop :=
  st.args.length < maxArgs ∧ st.inputFiles.length < maxArgs ∧ st.outputFiles.length < maxArgs

/-- A list that is made longer only while it is short. -/
theorem length_concat_lt {α : Type*} {l : List α} (h : l.length < maxArgs - 1) (a : α) :
    (l ++ [a]).length < maxArgs := by
  rw [List.length_append, List.length_singleton]
  omega

theorem Within.addArg (h : Within st) (w : Str) : Within (st.addArg w) := by
  unfold CommandStage.addArg
  split_ifs with hlt
  · exact ⟨length_concat_lt hlt w, h.2⟩
  · exact h

theorem Within.addInput (h : Within st) (w : Str) :
    Within (st.addInput w) := by
  unfold CommandStage.addInput
  split_ifs with hlt
  · exact ⟨h.1, length_concat_lt hlt w, h.2.2⟩
  · exact h

theorem Within.addOutput (h : Within st) (w : Str) (app : Bool) :
    Within (st.addOutput w app) := by
  unfold CommandStage.addOutput
  split_ifs with hlt
  · exact ⟨h.1, h.2.1, length_concat_lt hlt _⟩
  · exact h

/-- Stages that may be handed to an executor. -/
def Runnable (stages : List CommandStage) : Prop :=
  stages.length ≤ maxStages ∧ ∀ st ∈ stages, st.args ≠ [] ∧ Within st

/-- The inner loop closes no stage without a word, and leaves room for one more. -/
theorem segmentLoop_within {done' : List CommandStage} {cur' : CommandStage}
    (hrun : segmentLoop toks done cur = .stop done' cur' at_) (hlen : done.length < maxStages)
    (hdone : ∀ st ∈ done, st.args ≠ [] ∧ Within st) (hcur : Within cur) :
    done'.length < maxStages ∧ (∀ st ∈ done', st.args ≠ [] ∧ Within st) ∧ Within cur' := by
  fun_induction segmentLoop toks done cur with
  | case1 | case2 | case3 | case4 =>
    cases hrun
    exact ⟨hlen, hdone, hcur⟩
  | case5 | case6 | case9 | case11 | case13 => cases hrun
  | case7 rest done cur hargs hroom ih =>
    apply ih hrun
    · rw [List.length_append, List.length_singleton]
      omega
    · intro st hst
      rcases List.mem_append.mp hst with hst | hst
      · exact hdone st hst
      · rw [List.mem_singleton.mp hst]
        exact ⟨hargs, hcur⟩
    · exact ⟨by decide, by decide, by decide⟩
  | case8 w rest done cur ih => exact ih hrun hlen hdone (hcur.addInput w)
  | case10 w rest done cur ih => exact ih hrun hlen hdone (hcur.addOutput w false)
  | case12 w rest done cur ih => exact ih hrun hlen hdone (hcur.addOutput w true)
  | case14 w rest done cur ih => exact ih hrun hlen hdone (hcur.addArg w)

theorem runnable_closeStages (h : segmentLoop toks [] {} = .stop done cur at_) :
    Runnable (closeStages done cur) := by
  obtain ⟨hlen, hdone, hcur⟩ :=
    segmentLoop_within h (by decide) (by simp) ⟨by decide, by decide, by decide⟩
  unfold closeStages
  split_ifs with hargs
  · exact ⟨Nat.zero_le _, by simp⟩
  · refine ⟨?_, ?_⟩
    · rw [List.length_append, List.length_singleton]
      exact hlen
    · intro st hst
      rcases List.mem_append.mp hst with hst | hst
      · exact hdone st hst
      · rw [List.mem_singleton.mp hst]
        exact ⟨hargs, hcur⟩

/-- Every dispatch of a line has stages that can be run, and the executor for them. -/
theorem runnable_of_mem_dispatches (results : ℕ → ℤ) (toks : TokenList) (k : ℕ) :
    ∀ d ∈ (runLine results toks k).dispatches, d.stages ≠ [] ∧ Runnable d.stages ∧
      ∃ isBg, d.executor = executorOf d.stages isBg := by
  fun_induction runLine results toks k with
  | case1 | case2 | case3 => simp
  | case4 toks k hend done cur at_ hseg stages hnone ih => exact ih
  | case5 toks k hend done cur at_ hseg stages hsome d hstop =>
    intro e he
    rw [List.mem_singleton.mp he]
    exact ⟨hsome, runnable_closeStages hseg, _, rfl⟩
  | case6 toks k hend done cur at_ hseg stages hsome d hgo r ih =>
    intro e he
    rcases List.mem_cons.mp he with rfl | he
    · exact ⟨hsome, runnable_closeStages hseg, _, rfl⟩
    · exact ih e he

/-- **The segmenter stays in bounds on every accepted line.**  Whatever the
executors return, the loops of `main` over the arrays end without a fault: no
missing token is followed, the branch marked unreachable is not taken, every
index is inside of its array and every slot that is read has been written.
Every stage that is handed over has at least one word and its `NULL` in place,
and is one of at most 64. -/
theorem mainLoop_safe (results : ℕ → ℤ) (toks : TokenList) (h : parseValidate toks = true) :
    ∃ run, mainLoop results toks 0 = .ok run ∧
      ∀ d ∈ run.dispatches, d.stages ≠ [] ∧ d.stages.length ≤ 64 ∧
        ∀ st ∈ d.stages, st.args ≠ [] ∧ st.args.length < 100 ∧ st.inputFiles.length < 100 ∧
          st.outputFiles.length < 100 := by
  refine ⟨runLine results toks 0, mainLoop_eq_runLine results toks 0
    (runLine_accepted results toks 0 h), ?_⟩
  intro d hd
  obtain ⟨hne, ⟨hlen, hst⟩, -⟩ := runnable_of_mem_dispatches results toks 0 d hd
  exact ⟨hne, hlen, hst⟩

/-- `a | b < f ; c` followed by its end. -/
theorem mainLoop_safe_two :
    parseValidate [.word ['a'], .pipe, .word ['b'], .lt, .word ['f'], .semi, .word ['c'], .eof] =
        true ∧
      ∃ run, mainLoop (fun _ => 0)
        [.word ['a'], .pipe, .word ['b'], .lt, .word ['f'], .semi, .word ['c'], .eof] 0 = .ok run ∧
        ∀ d ∈ run.dispatches, d.stages ≠ [] ∧ d.stages.length ≤ 64 ∧
          ∀ st ∈ d.stages, st.args ≠ [] ∧ st.args.length < 100 ∧ st.inputFiles.length < 100 ∧
            st.outputFiles.length < 100 :=
  ⟨by decide, mainLoop_safe _ _ (by decide)⟩

end Segment
end RuShell
