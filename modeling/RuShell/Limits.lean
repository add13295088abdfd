import RuShell.SegmentArrays

/-!
# Lines over the limits

The arrays of `main` are finite.  A pipeline with more than 64 stages is a syntax error,
but only when its segment is reached: the segments before it have been run by then.  A
stage with more than 99 words, input files or output files is no error at all: the loop
drops what does not fit and runs the rest.  And a builtin is called with its words alone:
its input and output files are dropped, and so are the arguments of `activities`.

## Main definitions

* `CommandStage.fill` — one item of a stage, whether or not it fits.
* `Dispatch.handed` — what an executor is called with.
* `WithinLimits`, `WholeOrRejected` — the condition, and what it is equivalent to.

## Main results

* `segmentLoop_anyPipeline` — a pipeline with too many stages is an error, whatever else
  is in it, and every other one is dispatched.
* `wholeOrRejected_iff`, `line_whole_or_rejected` — a line is run as it stands or rejected
  whole exactly if the commands that are due are within the limits and plain, or the first
  pipeline has too many stages.
* `line_altered` — three lines that are neither.
-/

namespace RuShell
namespace Segment

open RuShell.Parser

/-! ### Too many stages -/

/-- An item of a stage goes into its array, or is dropped. -/
def CommandStage.fill (c : CommandStage) : Item → CommandStage
  | .arg w => c.addArg w
  | .input f => c.addInput f
  | .output f => c.addOutput f false
  | .append f => c.addOutput f true

theorem segmentLoop_fill (items : List Item) (t : TokenList) (done : List CommandStage)
    (cur : CommandStage) :
    segmentLoop (items.flatMap Item.tokens ++ t) done cur =
      segmentLoop t done (items.foldl CommandStage.fill cur) := by
  induction items generalizing cur with
  | nil => rfl
  | cons i items ih =>
    rw [List.flatMap_cons, List.append_assoc, List.foldl_cons, ← ih]
    cases i <;> rfl

/-- The words of a stage never get fewer. -/
theorem fill_args_ne_nil {c : CommandStage} (h : c.args ≠ []) (i : Item) :
    (c.fill i).args ≠ [] := by
  cases i with
  | arg w =>
    simp only [CommandStage.fill, CommandStage.addArg]
    split
    · simp
    · exact h
  | input f =>
    simp only [CommandStage.fill, CommandStage.addInput]
    split <;> exact h
  | output f | append f =>
    simp only [CommandStage.fill, CommandStage.addOutput]
    split <;> exact h

theorem foldl_fill_args_ne_nil {c : CommandStage} (h : c.args ≠ []) (items : List Item) :
    (items.foldl CommandStage.fill c).args ≠ [] := by
  induction items generalizing c with
  | nil => exact h
  | cons i items ih => exact ih (fill_args_ne_nil h i)

/-- Any stage, within the limits or not, leaves a stage with a command word. -/
theorem segmentLoop_anyStage (s : Stage) (t : TokenList) (done : List CommandStage) :
    ∃ cur, cur.args ≠ [] ∧ segmentLoop (s.tokens ++ t) done {} = segmentLoop t done cur := by
  have hcmd : (CommandStage.addArg {} s.cmd).args ≠ [] := by
    rw [addArg_of_lt (by simp)]
    simp
  refine ⟨_, foldl_fill_args_ne_nil hcmd s.items, ?_⟩
  rw [Stage.tokens, List.cons_append, segmentLoop, segmentLoop_fill]

/-- The stages behind the pipes, within the limits or not. -/
theorem segmentLoop_anyPiped {t : TokenList} (ht : Stops t) (ss : List Stage)
    (done : List CommandStage) {cur : CommandStage} (hcur : cur.args ≠ [])
    (hdone : done.length + 1 ≤ 64) :
    64 < done.length + 1 + ss.length ∧
        segmentLoop (pipedTokens ss ++ t) done cur = .syntaxError ∨
      done.length + 1 + ss.length ≤ 64 ∧ ∃ done' cur', cur'.args ≠ [] ∧
        segmentLoop (pipedTokens ss ++ t) done cur = .stop done' cur' t := by
  induction ss generalizing done cur with
  | nil => exact .inr ⟨hdone, done, cur, hcur, segmentLoop_of_stops ht done cur⟩
  | cons s ss ih =>
    have htok : pipedTokens (s :: ss) ++ t = .pipe :: (s.tokens ++ (pipedTokens ss ++ t)) := by
      simp [pipedTokens]
    have hlen : (done ++ [cur]).length + 1 + ss.length = done.length + 1 + (s :: ss).length := by
      simp only [List.length_append, List.length_cons, List.length_nil]
      omega
    rw [htok, segmentLoop, if_neg hcur]
    split
    · rename_i hfull
      simp only [maxStages] at hfull
      refine .inl ⟨?_, rfl⟩
      rw [List.length_cons]
      omega
    · rename_i hroom
      simp only [maxStages] at hroom
      obtain ⟨next, hnext, hstage⟩ := segmentLoop_anyStage s (pipedTokens ss ++ t) (done ++ [cur])
      rw [hstage, ← hlen]
      refine ih _ hnext ?_
      rw [List.length_append, List.length_singleton]
      omega

/-- A pipeline, within the limits or not. -/
theorem segmentLoop_anyPipeline (p : Pipeline) {t : TokenList} (ht : Stops t) :
    64 < p.stages.length ∧ segmentLoop (p.tokens ++ t) [] {} = .syntaxError ∨
      p.stages.length ≤ 64 ∧ ∃ done cur, cur.args ≠ [] ∧
        segmentLoop (p.tokens ++ t) [] {} = .stop done cur t := by
  obtain ⟨cur, hcur, hstage⟩ := segmentLoop_anyStage p.first (pipedTokens p.more ++ t) []
  have h := segmentLoop_anyPiped ht p.more [] hcur (by simp)
  rw [List.length_nil, Nat.zero_add, Nat.add_comm] at h
  rw [Pipeline.tokens, List.append_assoc, hstage]
  exact h

/-! ### What the executors get -/

/-- What an executor is called with.  A builtin gets the words of the stage and none of
its files, and `activities_print` gets nothing: its name alone has been used. -/
def Executor.receives : Executor → CommandStage → CommandStage
  | .builtin b, st => ⟨if b = .activities then st.args.take 1 else st.args, [], []⟩
  | _, st => st

/-- A dispatch, as its executor sees it. -/
def Dispatch.handed (d : Dispatch) : Command :=
  { d.command with stages := d.stages.map d.executor.receives }

/-- A builtin has no redirection, and `activities` no arguments. -/
def Command.Plain (c : Command) : Prop :=
  c.builtin = true → ∀ st ∈ c.stages, st.inputFiles = [] ∧ st.outputFiles = [] ∧
    (builtinOf (commandWord c.stages) = some .activities → st.args.length ≤ 1)

theorem builtinOf_of_executorOf {stages : List CommandStage} {isBg : Bool} {b : Builtin}
    (h : executorOf stages isBg = .builtin b) : builtinOf (commandWord stages) = some b := by
  unfold executorOf at h
  split at h
  · cases h
  · split at h
    · split at h
      · rename_i b' hb
        rw [hb, Executor.builtin.inj h]
      · cases h
    · cases h

theorem commandWord_receives (e : Executor) (stages : List CommandStage) :
    commandWord (stages.map e.receives) = commandWord stages := by
  cases stages with
  | nil => rfl
  | cons st stages =>
    cases e with
    | builtin b =>
      simp only [List.map_cons, commandWord, Executor.receives]
      split
      · cases st.args <;> rfl
      · rfl
    | background | withRedirection | pipeline => rfl

/-- What is handed over is within the limits. -/
theorem handed_fits {d : Dispatch} (hrun : Runnable d.stages) : d.handed.Fits := by
  refine ⟨(List.length_map _).trans_le hrun.1, fun st' hst' => ?_⟩
  obtain ⟨st, hst, rfl⟩ := List.mem_map.mp hst'
  obtain ⟨-, ha, hi, ho⟩ := hrun.2 st hst
  simp only [maxArgs] at ha hi ho
  cases d.executor with
  | builtin b =>
    refine ⟨?_, Nat.zero_le _, Nat.zero_le _⟩
    simp only [Executor.receives]
    split
    · exact (List.length_take_le' _ _).trans (by omega)
    · omega
  | background | withRedirection | pipeline =>
    exact ⟨Nat.le_of_lt_succ ha, Nat.le_of_lt_succ hi, Nat.le_of_lt_succ ho⟩

/-- **What is handed over is plain, and it is the whole command if that is plain.** -/
theorem handed_plain {d : Dispatch} {isBg : Bool} (hexec : d.executor = executorOf d.stages isBg) :
    d.handed.Plain ∧ (d.command.Plain → d.handed = d.command) := by
  obtain ⟨stages, e⟩ := d
  cases e with
  | builtin b =>
    have hb := builtinOf_of_executorOf hexec.symm
    constructor
    · intro _ st' hst'
      obtain ⟨st, -, rfl⟩ := List.mem_map.mp hst'
      refine ⟨rfl, rfl, fun hword => ?_⟩
      rw [Dispatch.handed, commandWord_receives, hb] at hword
      simp only [Executor.receives, if_pos (Option.some.inj hword)]
      exact List.length_take_le _ _
    · intro hplain
      have hid : ∀ st ∈ stages, (Executor.builtin b).receives st = st := by
        intro st hst
        obtain ⟨hi, ho, ha⟩ := hplain rfl st hst
        obtain ⟨args, inputFiles, outputFiles⟩ := st
        obtain rfl : inputFiles = [] := hi
        obtain rfl : outputFiles = [] := ho
        simp only [Executor.receives]
        split
        · rename_i hact
          rw [List.take_of_length_le (ha (hact ▸ hb))]
        · rfl
      simp only [Dispatch.handed, List.map_congr_left hid, List.map_id']
      rfl
  | background | withRedirection | pipeline =>
    exact ⟨Bool.noConfusion, fun _ => congrArg (Command.mk · _ _) (List.map_id' stages)⟩

/-! ### Lines -/

/-- The commands that are due, up to the first failure, are within the limits and plain,
or the first pipeline of the line has too many stages. -/
def WithinLimits (results : ℕ → ℤ) (l : Line) : Prop :=
  (∀ c ∈ untilFailure results 0 (expectedLine l), c.Fits ∧ c.Plain) ∨
    ∃ c ∈ (expectedLine l).head?, 64 < c.stages.length

instance (c : Command) : Decidable c.Fits := inferInstanceAs (Decidable (_ ∧ _))

instance (c : Command) : Decidable c.Plain := inferInstanceAs (Decidable (_ → _))

instance (results : ℕ → ℤ) (l : Line) : Decidable (WithinLimits results l) :=
  inferInstanceAs (Decidable (_ ∨ _))

/-- The line has been run as it stands: every command up to the first failure, with every
word and file of it handed to its executor.  Or it has been rejected and nothing has been
run. -/
def WholeOrRejected (results : ℕ → ℤ) (l : Line) (r : LineRun) : Prop :=
  (r.dispatches.map Dispatch.handed = untilFailure results 0 (expectedLine l) ∧
    r.printed = "" ∧ r.fault = false) ∨
  (r.dispatches = [] ∧ r.printed = Lexer.lexError ∧ r.fault = false)

theorem head?_expectedFrom (p : Pipeline) (more : List (Sep × Pipeline)) (amp : Bool) :
    ∃ b, (expectedFrom p more amp).head? = some (expected p b) := by
  cases more with
  | nil => exact ⟨amp, rfl⟩
  | cons q more => exact ⟨_, rfl⟩

theorem stops_separated (more : List (Sep × Pipeline)) (amp : Bool) :
    Stops (separatedTokens more ++ (ampTokens amp ++ [.eof])) := by
  cases more with
  | nil => cases amp <;> simp [Stops, separatedTokens, ampTokens]
  | cons q more =>
    obtain ⟨sep, q⟩ := q
    cases sep <;> simp [Stops, separatedTokens_cons, Sep.token]

/-- **A line is run as it stands or rejected whole exactly if** the condition holds. -/
theorem wholeOrRejected_iff (results : ℕ → ℤ) (l : Line) :
    WholeOrRejected results l (runLine results (l.tokens ++ [.eof]) 0) ↔
      WithinLimits results l := by
  cases l with
  | empty => simp [WholeOrRejected, WithinLimits, Line.tokens, runLine, expectedLine, untilFailure]
  | cmds first more amp =>
    rw [Line.tokens, List.append_assoc, List.append_assoc]
    have hdispatch := runnable_of_mem_dispatches results
      (first.tokens ++ (separatedTokens more ++ (ampTokens amp ++ [.eof]))) 0
    obtain ⟨b, hhead⟩ := head?_expectedFrom first more amp
    constructor
    · rintro (⟨hd, -, -⟩ | ⟨hd, hprinted, -⟩)
      · refine .inl fun c hc => ?_
        rw [← hd] at hc
        obtain ⟨d, hmem, rfl⟩ := List.mem_map.mp hc
        obtain ⟨-, hrun, isBg, hexec⟩ := hdispatch d hmem
        exact ⟨handed_fits hrun, (handed_plain hexec).1⟩
      · refine .inr ⟨_, hhead, ?_⟩
        rcases segmentLoop_anyPipeline first (stops_separated more amp) with
          ⟨hmany, -⟩ | ⟨-, done, cur, hcur, hstop⟩
        · simpa [expected] using hmany
        · -- a pipeline that fits is dispatched
          have hne : closeStages done cur ≠ [] := by simp [closeStages, hcur]
          rw [runLine_of_stop (pipeline_starts _ _) hstop hne] at hd
          dsimp only at hd
          split at hd <;> cases hd
    · rintro (hall | ⟨c, hc, hmany⟩)
      · obtain ⟨hd, hrest⟩ := runLine_from results amp more first 0 fun c hc => (hall c hc).1
        refine .inl ⟨?_, hrest⟩
        have hall' : ∀ c ∈ untilFailure results 0 (expectedFrom first more amp), c.Plain :=
          fun c hc => (hall c hc).2
        rw [← hd] at hall'
        refine Eq.trans (List.map_congr_left fun d hmem => ?_) hd
        obtain ⟨-, -, isBg, hexec⟩ := hdispatch d hmem
        exact (handed_plain hexec).2 (hall' _ (List.mem_map_of_mem hmem))
      · rw [show c = expected first b from Option.some.inj (hc.symm.trans hhead)] at hmany
        have hmany' : 64 < first.stages.length := by simpa [expected] using hmany
        rcases segmentLoop_anyPipeline first (stops_separated more amp) with
          ⟨-, hsegment⟩ | ⟨hle, -⟩
        · rw [runLine_of_syntaxError (pipeline_starts _ _) hsegment]
          exact .inr ⟨rfl, rfl, rfl⟩
        · omega

/-- A token list that `parse_validate` accepts has a tree.  For every tree of it, and
whatever the executors return, `main` runs the line as it stands or rejects it before
anything is run exactly if the condition holds. -/
theorem line_whole_or_rejected (toks : TokenList) (hshape : LexShape toks)
    (hvalid : parseValidate toks = true) :
    (∃ l : Line, toks = l.tokens ++ [.eof]) ∧
      ∀ l : Line, toks = l.tokens ++ [.eof] → ∀ results : ℕ → ℤ,
        (WholeOrRejected results l (runLine results toks 0) ↔ WithinLimits results l) := by
  obtain ⟨ts, heof, rfl⟩ := hshape
  refine ⟨?_, fun l hl results => ?_⟩
  · obtain ⟨l, hl⟩ := (parseValidate_append_eof heof).mp hvalid
    exact ⟨l, by rw [hl]⟩
  · rw [hl]
    exact wholeOrRejected_iff results l

/-- `a | a | … | a`, with 65 stages. -/
def widePipeline : Pipeline := ⟨⟨['a'], []⟩, List.replicate 64 ⟨['a'], []⟩⟩

/-- `a ; a > f ; a | a | … | a`: the pipeline is not reached when `a > f` fails. -/
def lateLine : Line :=
  .cmds ⟨⟨['a'], []⟩, []⟩ [(.semi, ⟨⟨['a'], [.output ['f']]⟩, []⟩), (.semi, widePipeline)] false

theorem line_whole_or_rejected_late :
    WholeOrRejected (fun k => if k = 1 then -1 else 0) lateLine
      (runLine (fun k => if k = 1 then -1 else 0) (lateLine.tokens ++ [.eof]) 0) := by
  have hshape : LexShape (lateLine.tokens ++ [.eof]) := ⟨lateLine.tokens, by decide, rfl⟩
  exact ((line_whole_or_rejected _ hshape (by decide)).2 lateLine rfl _).mpr (by decide +kernel)

/-- `a` with 99 arguments: it gets 98 of them. -/
def longLine : Line := .cmds ⟨⟨['a'], List.replicate 99 (.arg ['b'])⟩, []⟩ [] false

/-- `a ; a | a | … | a`: it is rejected when `a` has been run. -/
def wideLine : Line := .cmds ⟨⟨['a'], []⟩, []⟩ [(.semi, widePipeline)] false

/-- `reveal > f`: the file is dropped. -/
def fileLine : Line := .cmds ⟨⟨"reveal".toList, [.output ['f']]⟩, []⟩ [] false

/-- The line is accepted, and neither run as it stands nor rejected whole, although every
command succeeds. -/
def Altered (l : Line) : Prop :=
  parseValidate (l.tokens ++ [.eof]) = true ∧
    ¬ WholeOrRejected (fun _ => 0) l (runLine (fun _ => 0) (l.tokens ++ [.eof]) 0)

/-- **Three accepted lines are neither run as they stand nor rejected whole.** -/
theorem line_altered : Altered longLine ∧ Altered wideLine ∧ Altered fileLine := by
  simp only [Altered, wholeOrRejected_iff]
  decide +kernel

end Segment
end RuShell
