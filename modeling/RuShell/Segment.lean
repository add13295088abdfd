import RuShell.Parser

/-!
# The segment loop of the shell

Once `parse_validate` has accepted a line, `main` of `c-shell/src/shell.c` walks
the tokens a second time.  It cuts them into segments at `;`, `&` and the end,
fills the stage arrays of each segment, and hands the segment to an executor;
a failed foreground command stops the rest of the line.

The arrays `stage_argv`, `stage_input_files`, `stage_output_files` and
`stage_append_flags` are indexed by the stage `s` and by counters; here a stage
is a record of lists whose lengths are the counters, and `s` is the number of
stages already closed.

## Main definitions

* `CommandStage` — one filled stage, as in `redirect.h`.
* `segmentLoop` — the inner loop over the tokens of one segment.
* `executorOf` — which executor a segment is handed to.
* `runLine` — the outer loop, with the dispatches it makes.
* `Pipeline.expected`, `Line.expected`, `untilFailure` — what the grammar says
  should be dispatched, and where a failure cuts it.

## Main results

* `segmentLoop_pipeline` — one segment rebuilds one pipeline of the tree.
* `runLine_refines_grammar` — **segmentation and sequencing refine the grammar.**
-/

namespace RuShell
namespace Segment

open RuShell.Parser

/-- `MAX_STAGES` -/
def maxStages : ℕ := 64

/-- `MAX_ARGS` -/
def maxArgs : ℕ := 100

/-- `command_stage`: the argument vector, the input files, and the output files
with their append flags. -/
structure CommandStage where
  /-- `args`, without the closing `NULL`. -/
  args : List Str := []
  /-- `input_files[0 .. input_count)` -/
  inputFiles : List Str := []
  /-- `output_files[0 .. output_count)` with `append_flags`. -/
  outputFiles : List (Str × Bool) := []
  deriving DecidableEq, Repr

/-- `if (argc < MAX_ARGS - 1) stage_argv[s][argc++] = cur->value` -/
def CommandStage.addArg (c : CommandStage) (w : Str) : CommandStage :=
  if c.args.length < maxArgs - 1 then { c with args := c.args ++ [w] } else c

/-- An input file, dropped when the array is full. -/
def CommandStage.addInput (c : CommandStage) (f : Str) : CommandStage :=
  if c.inputFiles.length < maxArgs - 1 then { c with inputFiles := c.inputFiles ++ [f] } else c

/-- An output file and its flag, dropped when the arrays are full. -/
def CommandStage.addOutput (c : CommandStage) (f : Str) (app : Bool) : CommandStage :=
  if c.outputFiles.length < maxArgs - 1 then { c with outputFiles := c.outputFiles ++ [(f, app)] }
  else c

/-! ### One segment -/

/-- How the inner loop ends. -/
inductive SegmentEnd
  /-- At a terminator: the closed stages, the stage being filled, and the tokens
  from the terminator on. -/
  | stop (done : List CommandStage) (cur : CommandStage) (at_ : TokenList)
  /-- `pipeline_syntax_error` is set. -/
  | syntaxError
  /-- The value of a missing token or of an operator would be read. -/
  | fault
  deriving DecidableEq, Repr

/-- The inner loop.  Its last, "unreachable" branch is the one for a token type
that none of the others names, and there is no such type. -/
def segmentLoop : TokenList → List CommandStage → CommandStage → SegmentEnd
  | [], done, cur => .stop done cur []
  | .eof :: rest, done, cur => .stop done cur (.eof :: rest)
  | .semi :: rest, done, cur => .stop done cur (.semi :: rest)
  | .amp :: rest, done, cur => .stop done cur (.amp :: rest)
  | .pipe :: rest, done, cur =>
    if cur.args = [] then .syntaxError
    else if maxStages ≤ done.length + 1 then .syntaxError
    else segmentLoop rest (done ++ [cur]) {}
  -- "parser guarantees this is TOK_WORD"
  | .lt :: .word f :: rest, done, cur => segmentLoop rest done (cur.addInput f)
  | .lt :: _, _, _ => .fault
  | .gt :: .word f :: rest, done, cur => segmentLoop rest done (cur.addOutput f false)
  | .gt :: _, _, _ => .fault
  | .gtgt :: .word f :: rest, done, cur => segmentLoop rest done (cur.addOutput f true)
  | .gtgt :: _, _, _ => .fault
  | .word w :: rest, done, cur => segmentLoop rest done (cur.addArg w)

/-- The stages of the segment, none when the last one is empty. -/
def closeStages (done : List CommandStage) (cur : CommandStage) : List CommandStage :=
  if cur.args = [] then [] else done ++ [cur]

/-! ### Choosing the executor -/

/-- The builtin commands. -/
inductive Builtin
  | hop | reveal | locate | peek | activities | resume | ping | spy | snoop
  deriving DecidableEq, Repr

/-- `is_builtin` -/
def isBuiltin (name : Str) : Bool :=
  name = "hop".toList || name = "reveal".toList || name = "locate".toList ||
    name = "peek".toList || name = "activities".toList || name = "resume".toList ||
      name = "ping".toList || name = "spy".toList || name = "snoop".toList

/-- The chain of `strcmp` calls that selects the builtin to run. -/
def builtinOf (name : Str) : Option Builtin :=
  if name = "hop".toList then some .hop
  else if name = "reveal".toList then some .reveal
  else if name = "locate".toList then some .locate
  else if name = "peek".toList then some .peek
  else if name = "activities".toList then some .activities
  else if name = "resume".toList then some .resume
  else if name = "ping".toList then some .ping
  else if name = "spy".toList then some .spy
  else if name = "snoop".toList then some .snoop
  else none

/-- Who runs a segment.  A builtin is called with the argument vector of the
only stage, the other three with the stages. -/
inductive Executor
  /-- `execute_background` -/
  | background
  /-- One of the builtins. -/
  | builtin (b : Builtin)
  /-- `execute_with_redirection` -/
  | withRedirection
  /-- `execute_pipeline` -/
  | pipeline
  deriving DecidableEq, Repr

/-- `argv0[0]`, the command word of the first stage. -/
def commandWord (stages : List CommandStage) : Str :=
  match stages with
  | [] => []
  | st :: _ => st.args.headD []

/-- The branches over `is_bg`, `num_stages` and the command word. -/
def executorOf (stages : List CommandStage) (isBg : Bool) : Executor :=
  if isBg && !(stages.length == 1 && isBuiltin (commandWord stages)) then .background
  else if stages.length = 1 then
    match builtinOf (commandWord stages) with
    | some b => .builtin b
    | none => .withRedirection
  else .pipeline

/-- `exec_status < 0`, where only the two foreground executors set it. -/
def Executor.stops (e : Executor) (result : ℤ) : Bool :=
  match e with
  | .background => false
  | .builtin _ => false
  | .withRedirection => result < 0
  | .pipeline => result < 0

/-! ### The whole line -/

/-- One dispatch: the stages main has filled in, and the executor. -/
structure Dispatch where
  /-- `stages[0 .. num_stages)` -/
  stages : List CommandStage
  /-- Who is called. -/
  executor : Executor
  deriving DecidableEq, Repr

/-- What happens to one line: the dispatches, in order, what main itself prints,
and whether it ran into a fault. -/
structure LineRun where
  /-- The dispatches, in order. -/
  dispatches : List Dispatch := []
  /-- What main prints. -/
  printed : String := ""
  /-- A missing token was read. -/
  fault : Bool := false
  deriving DecidableEq, Repr

variable {done : List CommandStage} {cur c : CommandStage} {toks at_ t : TokenList} {p : Pipeline}

theorem segmentLoop_length {done' : List CommandStage}
    {cur' : CommandStage}
    (h : segmentLoop toks done cur = .stop done' cur' at_) : at_.length ≤ toks.length := by
  fun_induction segmentLoop toks done cur with
  | case1 | case2 | case3 | case4 => simp_all
  | case5 | case6 | case9 | case11 | case13 => simp at h
  | case7 _ _ _ _ _ ih | case14 _ _ _ _ ih => exact (ih h).trans (by simp)
  | case8 _ _ _ _ ih | case10 _ _ _ _ ih | case12 _ _ _ _ ih => exact (ih h).trans (by simp; omega)

/-- Where the next segment starts. -/
def nextSegment (at_ : TokenList) : TokenList :=
  if at_.head? = some .semi ∨ at_.head? = some .amp then at_.tail else []

theorem nextSegment_length {n : ℕ} (h : at_.length ≤ n) (hn : 0 < n) :
    (nextSegment at_).length < n := by
  unfold nextSegment
  split_ifs with hs
  · rw [List.length_tail]
    omega
  · simpa using hn

/-- The loop over the segments.  `results k` is what the executor of the `k`-th
dispatch of the line returns. -/
def runLine (results : ℕ → ℤ) (toks : TokenList) (k : ℕ) : LineRun :=
  if _h : toks = [] ∨ toks.head? = some .eof then {}
  else
    match _hs : segmentLoop toks [] {} with
    | .fault => { fault := true }
    | .syntaxError => { printed := Lexer.lexError }
    | .stop done cur at_ =>
      let stages := closeStages done cur
      if stages = [] then runLine results (nextSegment at_) k
      else
        let d : Dispatch := ⟨stages, executorOf stages (at_.head? = some .amp)⟩
        if d.executor.stops (results k) then { dispatches := [d] }
        else
          let r := runLine results (nextSegment at_) (k + 1)
          { r with dispatches := d :: r.dispatches }
termination_by toks.length
decreasing_by
  all_goals
    refine nextSegment_length (segmentLoop_length ‹_›) ?_
    rw [List.length_pos_iff]
    exact fun h => ‹¬ _› (Or.inl h)

/-! ### What the grammar asks for -/

/-- The arguments among some items. -/
def argsOf : List Item → List Str
  | [] => []
  | .arg w :: items => w :: argsOf items
  | .input _ :: items => argsOf items
  | .output _ :: items => argsOf items
  | .append _ :: items => argsOf items

/-- The input files among some items. -/
def inputsOf : List Item → List Str
  | [] => []
  | .arg _ :: items => inputsOf items
  | .input f :: items => f :: inputsOf items
  | .output _ :: items => inputsOf items
  | .append _ :: items => inputsOf items

/-- The output files among some items, with `true` for `>>`. -/
def outputsOf : List Item → List (Str × Bool)
  | [] => []
  | .arg _ :: items => outputsOf items
  | .input _ :: items => outputsOf items
  | .output f :: items => (f, false) :: outputsOf items
  | .append f :: items => (f, true) :: outputsOf items

/-- The command a stage of the tree denotes. -/
def stageCommand (s : Stage) : CommandStage :=
  ⟨s.cmd :: argsOf s.items, inputsOf s.items, outputsOf s.items⟩

/-- A dispatch as the grammar sees it: the stages, whether it runs in the
background, and whether it is a builtin. -/
structure Command where
  /-- The stages, in source order. -/
  stages : List CommandStage
  /-- Run by `execute_background`. -/
  background : Bool
  /-- A single stage with a builtin's name. -/
  builtin : Bool
  deriving DecidableEq, Repr

/-- A pipeline that is one builtin. -/
def isSingleBuiltin (p : Pipeline) : Bool := p.more.isEmpty && isBuiltin p.first.cmd

/-- The command a pipeline denotes when `amp` says that a `&` ends it; a single
builtin stays in the foreground. -/
def expected (p : Pipeline) (amp : Bool) : Command :=
  ⟨p.stages.map stageCommand, amp && !isSingleBuiltin p, isSingleBuiltin p⟩

/-- The commands of a line, each with the terminator behind it. -/
def expectedFrom : Pipeline → List (Sep × Pipeline) → Bool → List Command
  | p, [], amp => [expected p amp]
  | p, (sep, q) :: more, amp => expected p (sep = .amp) :: expectedFrom q more amp

/-- The commands of a line, in source order. -/
def expectedLine : Line → List Command
  | .empty => []
  | .cmds first more amp => expectedFrom first more amp

/-- The commands up to and with the first foreground one, other than a builtin,
whose result is negative; `k` counts the dispatches. -/
def untilFailure (results : ℕ → ℤ) : ℕ → List Command → List Command
  | _, [] => []
  | k, c :: cs =>
    if c.background = false ∧ c.builtin = false ∧ results k < 0 then [c]
    else c :: untilFailure results (k + 1) cs

/-- A dispatch, seen as the grammar sees it. -/
def Dispatch.command (d : Dispatch) : Command :=
  ⟨d.stages, d.executor matches .background, d.executor matches .builtin _⟩

/-- A stage that fits the arrays. -/
def StageFits (s : Stage) : Prop :=
  (argsOf s.items).length + 1 ≤ 99 ∧ (inputsOf s.items).length ≤ 99 ∧
    (outputsOf s.items).length ≤ 99

/-- A pipeline that fits the arrays. -/
def PipelineFits (p : Pipeline) : Prop := p.stages.length ≤ 64 ∧ ∀ s ∈ p.stages, StageFits s

/-- A line all of whose pipelines fit. -/
def LineFits : Line → Prop
  | .empty => True
  | .cmds first more _ => PipelineFits first ∧ ∀ q ∈ more, PipelineFits q.2

/-- The same of a command. -/
def Command.Fits (c : Command) : Prop :=
  c.stages.length ≤ 64 ∧ ∀ st ∈ c.stages, st.args.length ≤ 99 ∧ st.inputFiles.length ≤ 99 ∧
    st.outputFiles.length ≤ 99

theorem expected_fits_iff (p : Pipeline) (amp : Bool) :
    (expected p amp).Fits ↔ PipelineFits p := by
  simp [Command.Fits, PipelineFits, StageFits, expected, stageCommand]

theorem fits_of_mem_expectedFrom {more : List (Sep × Pipeline)} {amp : Bool}
    (hp : PipelineFits p) (hmore : ∀ q ∈ more, PipelineFits q.2) :
    ∀ c ∈ expectedFrom p more amp, c.Fits := by
  induction more generalizing p with
  | nil =>
    intro c hc
    rw [List.mem_singleton.mp hc]
    exact (expected_fits_iff p amp).mpr hp
  | cons q more ih =>
    intro c hc
    rcases List.mem_cons.mp hc with rfl | hc
    · exact (expected_fits_iff p _).mpr hp
    · exact ih (hmore q List.mem_cons_self)
        (fun q' hq' => hmore q' (List.mem_cons_of_mem _ hq')) c hc

theorem mem_of_mem_untilFailure {results : ℕ → ℤ} {k : ℕ} {cs : List Command} {c : Command}
    (h : c ∈ untilFailure results k cs) : c ∈ cs := by
  induction cs generalizing k with
  | nil => cases h
  | cons d cs ih =>
    rw [untilFailure] at h
    split at h
    · exact List.mem_singleton.mp h ▸ List.mem_cons_self
    · rcases List.mem_cons.mp h with rfl | h
      · exact List.mem_cons_self
      · exact List.mem_cons_of_mem _ (ih h)

theorem mem_untilFailure_cons (results : ℕ → ℤ) (k : ℕ) (c : Command) (cs : List Command) :
    c ∈ untilFailure results k (c :: cs) := by
  rw [untilFailure]
  split <;> exact List.mem_cons_self

/-! ### One segment rebuilds one pipeline -/

theorem addArg_of_lt (h : c.args.length < 99) (w : Str) :
    c.addArg w = ⟨c.args ++ [w], c.inputFiles, c.outputFiles⟩ := by
  rw [CommandStage.addArg, if_pos (by simpa [maxArgs] using h)]

theorem addInput_of_lt (h : c.inputFiles.length < 99) (f : Str) :
    c.addInput f = ⟨c.args, c.inputFiles ++ [f], c.outputFiles⟩ := by
  rw [CommandStage.addInput, if_pos (by simpa [maxArgs] using h)]

theorem addOutput_of_lt (h : c.outputFiles.length < 99) (f : Str)
    (app : Bool) : c.addOutput f app = ⟨c.args, c.inputFiles, c.outputFiles ++ [(f, app)]⟩ := by
  rw [CommandStage.addOutput, if_pos (by simpa [maxArgs] using h)]

/-- The items of a stage fill its arrays in source order. -/
theorem segmentLoop_items (items : List Item) (t : TokenList) (done : List CommandStage)
    (cur : CommandStage) (ha : cur.args.length + (argsOf items).length ≤ 99)
    (hi : cur.inputFiles.length + (inputsOf items).length ≤ 99)
    (ho : cur.outputFiles.length + (outputsOf items).length ≤ 99) :
    segmentLoop (items.flatMap Item.tokens ++ t) done cur =
      segmentLoop t done ⟨cur.args ++ argsOf items, cur.inputFiles ++ inputsOf items,
        cur.outputFiles ++ outputsOf items⟩ := by
  induction items generalizing cur with
  | nil => simp [argsOf, inputsOf, outputsOf]
  | cons i items ih =>
    rw [List.flatMap_cons, List.append_assoc]
    cases i with
    | arg w =>
      simp only [argsOf, inputsOf, outputsOf, List.length_cons] at ha hi ho
      have hstep := addArg_of_lt (c := cur) (by omega) w
      have hrest := ih ⟨cur.args ++ [w], cur.inputFiles, cur.outputFiles⟩
        (by rw [List.length_append, List.length_singleton]; omega) hi ho
      rw [Item.tokens, List.singleton_append, segmentLoop, hstep, hrest]
      simp [argsOf, inputsOf, outputsOf]
    | input f =>
      simp only [argsOf, inputsOf, outputsOf, List.length_cons] at ha hi ho
      have hstep := addInput_of_lt (c := cur) (by omega) f
      have hrest := ih ⟨cur.args, cur.inputFiles ++ [f], cur.outputFiles⟩ ha
        (by rw [List.length_append, List.length_singleton]; omega) ho
      rw [Item.tokens, List.cons_append, List.singleton_append, segmentLoop, hstep, hrest]
      simp [argsOf, inputsOf, outputsOf]
    | output f =>
      simp only [argsOf, inputsOf, outputsOf, List.length_cons] at ha hi ho
      have hstep := addOutput_of_lt (c := cur) (by omega) f false
      have hrest := ih ⟨cur.args, cur.inputFiles, cur.outputFiles ++ [(f, false)]⟩ ha hi
        (by rw [List.length_append, List.length_singleton]; omega)
      rw [Item.tokens, List.cons_append, List.singleton_append, segmentLoop, hstep, hrest]
      simp [argsOf, inputsOf, outputsOf]
    | append f =>
      simp only [argsOf, inputsOf, outputsOf, List.length_cons] at ha hi ho
      have hstep := addOutput_of_lt (c := cur) (by omega) f true
      have hrest := ih ⟨cur.args, cur.inputFiles, cur.outputFiles ++ [(f, true)]⟩ ha hi
        (by rw [List.length_append, List.length_singleton]; omega)
      rw [Item.tokens, List.cons_append, List.singleton_append, segmentLoop, hstep, hrest]
      simp [argsOf, inputsOf, outputsOf]

/-- A stage that fits is read into the command it denotes. -/
theorem segmentLoop_stage {s : Stage} (hs : StageFits s) (t : TokenList)
    (done : List CommandStage) :
    segmentLoop (s.tokens ++ t) done {} = segmentLoop t done (stageCommand s) := by
  obtain ⟨ha, hi, ho⟩ := hs
  rw [Stage.tokens, List.cons_append, segmentLoop, addArg_of_lt (by simp),
    segmentLoop_items _ _ _ _ (by simpa [Nat.add_comm] using ha) (by simpa using hi)
      (by simpa using ho)]
  simp [stageCommand]

theorem stageCommand_args_ne_nil (s : Stage) : (stageCommand s).args ≠ [] := by
  simp [stageCommand]

/-- A token list in front of which a segment stops. -/
def Stops (t : TokenList) : Prop :=
  t = [] ∨ t.head? = some .eof ∨ t.head? = some .semi ∨ t.head? = some .amp

theorem segmentLoop_of_stops (ht : Stops t) (done : List CommandStage)
    (cur : CommandStage) : segmentLoop t done cur = .stop done cur t := by
  cases t with
  | nil => rfl
  | cons u us =>
    simp only [Stops, List.head?_cons, Option.some.injEq, reduceCtorEq, false_or] at ht
    rcases ht with rfl | rfl | rfl <;> rfl

/-- The stages behind the pipes are closed one after the other. -/
theorem segmentLoop_piped {ss : List Stage} (hss : ∀ s ∈ ss, StageFits s)
    (ht : Stops t) (hcur : cur.args ≠ [])
    (hlen : done.length + 1 + ss.length ≤ 64) :
    ∃ done' cur', segmentLoop (pipedTokens ss ++ t) done cur = .stop done' cur' t ∧
      closeStages done' cur' = done ++ cur :: ss.map stageCommand := by
  induction ss generalizing done cur with
  | nil =>
    refine ⟨done, cur, segmentLoop_of_stops ht done cur, ?_⟩
    rw [closeStages, if_neg hcur, List.map_nil]
  | cons s ss ih =>
    rw [List.length_cons] at hlen
    have htok : pipedTokens (s :: ss) ++ t = .pipe :: (s.tokens ++ (pipedTokens ss ++ t)) := by
      simp [pipedTokens]
    have hroom : ¬ maxStages ≤ done.length + 1 := by
      simp only [maxStages]
      omega
    have hlen' : (done ++ [cur]).length + 1 + ss.length ≤ 64 := by
      rw [List.length_append, List.length_singleton]
      omega
    obtain ⟨done', cur', hrun, hclose⟩ :=
      ih (fun s' hs' => hss s' (List.mem_cons_of_mem _ hs')) (stageCommand_args_ne_nil s) hlen'
    refine ⟨done', cur', ?_, ?_⟩
    · rw [htok, segmentLoop, if_neg hcur, if_neg hroom,
        segmentLoop_stage (hss s List.mem_cons_self), hrun]
    · rw [hclose, List.append_assoc, List.singleton_append, List.map_cons]

/-- One segment rebuilds one pipeline of the tree. -/
theorem segmentLoop_pipeline (hp : PipelineFits p)
    (ht : Stops t) :
    ∃ done cur, segmentLoop (p.tokens ++ t) [] {} = .stop done cur t ∧
      closeStages done cur = p.stages.map stageCommand := by
  obtain ⟨hlen, hfits⟩ := hp
  rw [Pipeline.stages, List.length_cons] at hlen
  have hlen' : ([] : List CommandStage).length + 1 + p.more.length ≤ 64 := by
    rw [List.length_nil]
    omega
  obtain ⟨done, cur, hrun, hclose⟩ :=
    segmentLoop_piped (fun s hs => hfits s (List.mem_cons_of_mem _ hs)) ht
      (stageCommand_args_ne_nil p.first) hlen'
  refine ⟨done, cur, ?_, ?_⟩
  · rw [Pipeline.tokens, List.append_assoc, segmentLoop_stage (hfits _ List.mem_cons_self), hrun]
  · rw [hclose, Pipeline.stages, List.map_cons, List.nil_append]

/-! ### The executor of a rebuilt pipeline -/

theorem isBuiltin_eq_isSome (name : Str) : isBuiltin name = (builtinOf name).isSome := by
  unfold isBuiltin builtinOf
  split_ifs <;> simp_all

/-- The executor of a rebuilt pipeline, in terms of the tree. -/
theorem executorOf_pipeline (p : Pipeline) (amp : Bool) :
    executorOf (p.stages.map stageCommand) amp =
      if amp && !isSingleBuiltin p then .background
      else if p.more = [] then
        match builtinOf p.first.cmd with
        | some b => .builtin b
        | none => .withRedirection
      else .pipeline := by
  have hword : commandWord (p.stages.map stageCommand) = p.first.cmd := rfl
  have hlen : (p.stages.map stageCommand).length = p.more.length + 1 := by
    simp [Pipeline.stages]
  rw [executorOf, hword, hlen, isSingleBuiltin]
  cases p.more with
  | nil => rfl
  | cons s ss => simp

/-- Whether the executor of a rebuilt pipeline is a builtin. -/
theorem executorOf_builtin (p : Pipeline) (amp : Bool) :
    (executorOf (p.stages.map stageCommand) amp matches .builtin _) = isSingleBuiltin p := by
  rw [executorOf_pipeline, isSingleBuiltin, isBuiltin_eq_isSome]
  cases p.more with
  | nil => cases builtinOf p.first.cmd <;> cases amp <;> rfl
  | cons s ss => cases amp <;> rfl

/-- Whether the executor of a rebuilt pipeline is the background one. -/
theorem executorOf_background (p : Pipeline) (amp : Bool) :
    (executorOf (p.stages.map stageCommand) amp matches .background) =
      (amp && !isSingleBuiltin p) := by
  rw [executorOf_pipeline, isSingleBuiltin, isBuiltin_eq_isSome]
  cases p.more with
  | nil => cases builtinOf p.first.cmd <;> cases amp <;> rfl
  | cons s ss => cases amp <;> rfl

/-- The dispatch of a rebuilt pipeline. -/
def pipelineDispatch (p : Pipeline) (amp : Bool) : Dispatch :=
  ⟨p.stages.map stageCommand, executorOf (p.stages.map stageCommand) amp⟩

/-- It is the command the grammar expects. -/
theorem pipelineDispatch_command (p : Pipeline) (amp : Bool) :
    (pipelineDispatch p amp).command = expected p amp := by
  simp only [pipelineDispatch, Dispatch.command, expected, executorOf_background,
    executorOf_builtin]

/-- An executor that is neither a builtin nor the background one stops the line
on a negative result, and no other does. -/
theorem stops_iff (d : Dispatch) (r : ℤ) :
    d.executor.stops r = true ↔
      d.command.background = false ∧ d.command.builtin = false ∧ r < 0 := by
  obtain ⟨stages, e⟩ := d
  cases e <;> simp [Executor.stops, Dispatch.command]

/-! ### The line -/

theorem separatedTokens_cons (sep : Sep) (q : Pipeline) (more : List (Sep × Pipeline)) :
    separatedTokens ((sep, q) :: more) = sep.token :: (q.tokens ++ separatedTokens more) := by
  simp [separatedTokens]

theorem pipeline_starts (p : Pipeline) (t : TokenList) :
    ¬ (p.tokens ++ t = [] ∨ (p.tokens ++ t).head? = some .eof) := by
  simp [Pipeline.tokens, Stage.tokens]

/-- A segment with an error ends the line. -/
theorem runLine_of_syntaxError
    (hstart : ¬ (toks = [] ∨ toks.head? = some .eof))
    (h : segmentLoop toks [] {} = .syntaxError) (results : ℕ → ℤ) (k : ℕ) :
    runLine results toks k = { printed := Lexer.lexError } := by
  rw [runLine, dif_neg hstart]
  split
  · next h' => simp [h] at h'
  · rfl
  · next h' => simp [h] at h'

/-- A segment with stages is dispatched. -/
theorem runLine_of_stop
    (hstart : ¬ (toks = [] ∨ toks.head? = some .eof))
    (h : segmentLoop toks [] {} = .stop done cur at_) (hcur : closeStages done cur ≠ [])
    (results : ℕ → ℤ) (k : ℕ) :
    runLine results toks k =
      let d : Dispatch :=
        ⟨closeStages done cur, executorOf (closeStages done cur) (at_.head? = some .amp)⟩
      if d.executor.stops (results k) then { dispatches := [d] }
      else
        { runLine results (nextSegment at_) (k + 1) with
          dispatches := d :: (runLine results (nextSegment at_) (k + 1)).dispatches } := by
  rw [runLine, dif_neg hstart]
  split
  · next h' => simp [h] at h'
  · next h' => simp [h] at h'
  · next done' cur' at' h' =>
    rw [h, SegmentEnd.stop.injEq] at h'
    obtain ⟨rfl, rfl, rfl⟩ := h'
    simp only [if_neg hcur]

/-- A segment that starts with a pipeline of the tree, and what comes after it. -/
theorem runLine_pipeline (hp : PipelineFits p) (ht : Stops t)
    (results : ℕ → ℤ) (k : ℕ) :
    runLine results (p.tokens ++ t) k =
      let d := pipelineDispatch p (t.head? = some .amp)
      if d.executor.stops (results k) then { dispatches := [d] }
      else
        { runLine results (nextSegment t) (k + 1) with
          dispatches := d :: (runLine results (nextSegment t) (k + 1)).dispatches } := by
  obtain ⟨done, cur, hrun, hclose⟩ := segmentLoop_pipeline hp ht
  have hne : p.stages.map stageCommand ≠ [] := by simp [Pipeline.stages]
  rw [runLine_of_stop (pipeline_starts p t) hrun (by rwa [hclose]), hclose]
  rfl

/-- The commands from a pipeline on, when those up to the first failure fit. -/
theorem runLine_from (results : ℕ → ℤ) (amp : Bool) (more : List (Sep × Pipeline))
    (p : Pipeline) (k : ℕ)
    (hfits : ∀ c ∈ untilFailure results k (expectedFrom p more amp), c.Fits) :
    let r := runLine results (p.tokens ++ (separatedTokens more ++ (ampTokens amp ++ [.eof]))) k
    r.dispatches.map Dispatch.command = untilFailure results k (expectedFrom p more amp) ∧
      r.printed = "" ∧ r.fault = false := by
  -- by induction on the pipelines behind `p`: each turn of the loop consumes one
  induction more generalizing p k with
  | nil =>
    have ht : Stops (ampTokens amp ++ [.eof]) := by cases amp <;> simp [Stops, ampTokens]
    have hnext : ∀ j, runLine results (nextSegment (ampTokens amp ++ [.eof])) j = {} := by
      intro j
      cases amp <;> simp [ampTokens, nextSegment, runLine]
    have hamp : decide ((ampTokens amp ++ [Token.eof]).head? = some .amp) = amp := by
      cases amp <;> rfl
    have hp : PipelineFits p :=
      (expected_fits_iff p amp).mp (hfits _ (mem_untilFailure_cons ..))
    intro r
    have hr : r = _ := runLine_pipeline hp ht results k
    simp only [hamp, hnext] at hr
    rw [hr, expectedFrom, untilFailure, untilFailure, ← pipelineDispatch_command]
    simp only [stops_iff]
    split_ifs <;> simp
  | cons q more ih =>
    obtain ⟨sep, q⟩ := q
    set t := separatedTokens ((sep, q) :: more) ++ (ampTokens amp ++ [.eof]) with htdef
    have ht : t = sep.token ::
        (q.tokens ++ (separatedTokens more ++ (ampTokens amp ++ [.eof]))) := by
      rw [htdef, separatedTokens_cons, List.cons_append, List.append_assoc]
    have hstop : Stops t := by
      rw [ht]
      cases sep <;> simp [Stops, Sep.token]
    have hnext : nextSegment t =
        q.tokens ++ (separatedTokens more ++ (ampTokens amp ++ [.eof])) := by
      rw [ht]
      cases sep <;> simp [nextSegment, Sep.token]
    have hamp : decide (t.head? = some .amp) = decide (sep = .amp) := by
      rw [ht]
      cases sep <;> rfl
    have hp : PipelineFits p :=
      (expected_fits_iff p _).mp (hfits _ (mem_untilFailure_cons ..))
    intro r
    have hr : r = _ := runLine_pipeline hp hstop results k
    simp only [hamp, hnext] at hr
    rw [expectedFrom, untilFailure, ← pipelineDispatch_command] at hfits ⊢
    rw [hr]
    simp only [stops_iff]
    split_ifs at hfits ⊢ with hfail
    · simp
    · obtain ⟨hd, hprinted, hfault⟩ := ih q (k + 1) fun c hc =>
        hfits c (List.mem_cons_of_mem _ hc)
      exact ⟨by simp [hd], hprinted, hfault⟩

/-- **Segmentation and sequencing refine the grammar.**  A token list that
`parse_validate` accepts has a tree, and for every tree of it that fits the
arrays, and whatever the executors return, the dispatches of `main` are the
pipelines of the tree in source order, cut right after the first foreground
command other than a builtin whose executor returned a negative value; `main`
prints nothing itself and reads no missing token. -/
theorem runLine_refines_grammar (toks : TokenList) (hshape : LexShape toks)
    (hvalid : parseValidate toks = true) :
    (∃ l : Line, toks = l.tokens ++ [.eof]) ∧
      ∀ l : Line, toks = l.tokens ++ [.eof] → LineFits l → ∀ results : ℕ → ℤ,
        (runLine results toks 0).dispatches.map Dispatch.command =
            untilFailure results 0 (expectedLine l) ∧
          (runLine results toks 0).printed = "" ∧ (runLine results toks 0).fault = false := by
  obtain ⟨ts, heof, rfl⟩ := hshape
  constructor
  · obtain ⟨l, hl⟩ := (parseValidate_append_eof heof).mp hvalid
    exact ⟨l, by rw [hl]⟩
  · rintro l hl hfits results
    cases l with
    | empty =>
      rw [hl]
      simp [Line.tokens, runLine, expectedLine, untilFailure]
    | cmds first more amp =>
      rw [hl, Line.tokens, List.append_assoc, List.append_assoc]
      exact runLine_from results amp more first 0 fun c hc =>
        fits_of_mem_expectedFrom hfits.1 hfits.2 c (mem_of_mem_untilFailure hc)

/-- `hop & a | b < f ; c`: the builtin stays in the foreground, and the failing
pipeline keeps `c` from running. -/
theorem runLine_refines_grammar_failing_pipeline :
    (runLine (fun k => if k = 1 then -1 else 0)
        [.word "hop".toList, .amp, .word ['a'], .pipe, .word ['b'], .lt, .word ['f'], .semi,
          .word ['c'], .eof] 0).dispatches.map Dispatch.command =
      [⟨[⟨["hop".toList], [], []⟩], false, true⟩,
        ⟨[⟨[['a']], [], []⟩, ⟨[['b']], [['f']], []⟩], false, false⟩] := by
  have hshape : LexShape [.word "hop".toList, .amp, .word ['a'], .pipe, .word ['b'], .lt,
      .word ['f'], .semi, .word ['c'], .eof] :=
    ⟨[.word "hop".toList, .amp, .word ['a'], .pipe, .word ['b'], .lt, .word ['f'], .semi,
      .word ['c']], by decide, rfl⟩
  have hfits : LineFits (.cmds ⟨⟨"hop".toList, []⟩, []⟩
      [(.amp, ⟨⟨['a'], []⟩, [⟨['b'], [.input ['f']]⟩]⟩), (.semi, ⟨⟨['c'], []⟩, []⟩)] false) := by
    simp [LineFits, PipelineFits, StageFits, Pipeline.stages, argsOf, inputsOf, outputsOf]
  exact ((runLine_refines_grammar _ hshape (by decide)).2 _ rfl hfits _).1

end Segment
end RuShell
