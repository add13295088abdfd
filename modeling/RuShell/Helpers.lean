import RuShell.HelperPact

/-!
# The launching functions and their helpers

While it sets up the stages the shell has, for each of them, at most the end of a pipe that
the command will read from and the end of one that it will write to, and it knows the pids
of the helpers.  When something cannot be opened it goes through the stages again, closes
these ends and waits for the helpers; otherwise it forks the stages first.

## Main definitions

* `Staffed` — what setting up one stage does.
* `Shelf` — the descriptors and the children of the shell while the stages are set up, and
  while this is undone.

## Main results

* `mwp_launchPipeline`, `mwp_launchBackground` — forking the stages keeps the pact.
* `mwp_executeWithRedirection`, `mwp_backgroundCommand` — so does a single command.
-/

namespace RuShell
namespace Redirect

open Lib.Posix
open RuShell.Segment

variable {lim : Limits} {env : Env} {stages : List CommandStage} {v : View sh}
  {pids : List (Option ℕ)} {f : Fds sh} {fds : List ℕ}

/-! ### Calls of the shell -/

section Calls

variable {Q : Unit → View sh → Prop}

theorem mwp_close {fd : ℕ} (hQ : Q () ⟨Function.update v.fds fd none, v.kids, v.late⟩) :
    mwp lim True (helperPact env stages) (close fd) Q v := by
  refine mwp_call_local rfl trivial fun x f hf => ?_
  have hf : f = Function.update v.fds fd none := hf
  rw [hf]
  exact hQ

theorem mwp_closeFds (hQ : Q () ⟨closed fds v.fds, v.kids, v.late⟩) :
    mwp lim True (helperPact env stages) (closeFds fds) Q v := by
  induction fds generalizing v with
  | nil =>
    rw [closed_nil] at hQ
    exact hQ
  | cons fd fds ih =>
    rw [closed_cons] at hQ
    exact mwp_bind (mwp_close (ih hQ))

theorem mwp_closeOpt {fd : Option ℕ} (hQ : Q () ⟨closed fd.toList v.fds, v.kids, v.late⟩) :
    mwp lim True (helperPact env stages) (closeOpt fd) Q v := by
  cases fd with
  | none =>
    rw [Option.toList_none, closed_nil] at hQ
    exact hQ
  | some fd =>
    rw [Option.toList_some, closed_cons, closed_nil] at hQ
    exact mwp_close hQ

theorem mwp_book {b : Book} {Q : ℤ → View sh → Prop} (hQ : ∀ z, Q z v) :
    mwp lim True (helperPact env stages) (book (I := sh) b) Q v := by
  refine mwp_call_local rfl trivial fun x f hf => ?_
  have hf : f = v.fds := hf
  rw [hf]
  exact hQ x

theorem mwp_note {b : Book} (hQ : Q () v) :
    mwp lim True (helperPact env stages) (note b) Q v := mwp_bind (mwp_book fun _ => hQ)

theorem mwp_setpgid {pid : ℕ} {pgid : Option ℕ} (hQ : Q () v) :
    mwp lim True (helperPact env stages) (setpgid pid pgid) Q v := by
  refine mwp_bind (mwp_book fun z => ?_)
  split
  · exact mwp_note hQ
  · exact hQ

theorem mwp_pipe {t : PipeTag} {Q : Option (ℕ × ℕ) → View sh → Prop} (hlate : v.late = false)
    (hok : ∀ a b, v.fds a = none → v.fds b = none → a ≠ b →
      Q (some (a, b)) ⟨piped t a b v.fds, v.kids, v.late⟩)
    (hfail : Q none v) : mwp lim True (helperPact env stages) (pipe (I := sh) t) Q v := by
  refine mwp_call_local rfl hlate fun x f hf => ?_
  match x, hf with
  | none, hf =>
    obtain ⟨-, rfl⟩ := hf
    exact hfail
  | some (a, b), hf =>
    obtain ⟨ha, hb, hab, rfl⟩ := hf
    exact hok a b ha hb hab

/-- The gate, which may be missing. -/
theorem mwp_gate {E : End sh → Prop} {Q : Option (ℕ × ℕ) → View sh → Prop} (hlate : v.late = false)
    (hread : E (.read .gate)) (hwrite : E (.write .gate)) (hf : Only E v.fds)
    (hQ : ∀ sync g, Only E g → Q sync ⟨g, v.kids, v.late⟩) :
    mwp lim True (helperPact env stages) (pipe (I := sh) .gate) Q v :=
  mwp_pipe hlate (fun _ _ _ _ _ => hQ _ _ (hf.piped hread hwrite)) (hQ none _ hf)

theorem mwp_openEach {files : List FileName}
    {Q : Except (List ℕ) (List ℕ) → View sh → Prop} (h : Opened f fds v.fds)
    (herror : ∀ fds g, Opened f fds g → Q (.error fds) ⟨g, v.kids, v.late⟩)
    (hok : ∀ fds g, Opened f fds g → Q (.ok fds) ⟨g, v.kids, v.late⟩) :
    mwp lim True (helperPact env stages) (openEach files fds) Q v := by
  induction files generalizing fds v with
  | nil => exact hok fds v.fds h
  | cons file files ih =>
    refine mwp_bind (mwp_call_local rfl trivial fun x g hg => ?_)
    match x, hg with
    | none, hg =>
      have hg : g = v.fds := hg
      rw [hg]
      exact herror fds v.fds h
    | some a, hg =>
      obtain ⟨ha, rfl⟩ := hg
      exact ih (h.snoc ha) herror hok

/-- Calls after which the shell does not look at its table any more. -/
def Routine : Call sh → Prop
  | .close _ => True
  | .book _ => True
  | _ => False

theorem routine_close : ∀ fd, Routine (.close fd) := fun _ => trivial

theorem routine_book : ∀ b, Routine (.book b) := fun _ => trivial

theorem routine_ok (c : Call sh) (v : View sh) (h : Routine c) :
    (helperPact env stages).main c v ∧ c.isWait = false := by
  cases c with
  | close fd | book b => exact ⟨trivial, rfl⟩
  | _ => exact h.elim

end Calls

/-- No end of a redirection is open. -/
def Bare (f : Fds sh) : Prop := Only (fun e => ∀ i, ShellEnd i e) f

theorem ShellTable.bare (hf : ShellTable f) : Bare f := by
  intro fd e he
  obtain ⟨n, rfl⟩ := hf.files fd e he
  exact fun _ => trivial

/-! ### The helpers of a stage -/

/-- What a `fork` that may fail does to the children. -/
def Hired (r : Role) (kids : List Role) (pid : Option ℕ) (kids' : List Role) : Prop :=
  match pid with
  | none => kids' = kids
  | some p => p = kids.length + 1 ∧ kids' = kids ++ [r]

section Hired

variable {r : Role} {kids kids' : List Role} {pid : Option ℕ}

theorem Hired.mem (h : Hired r kids pid kids') {r' : Role} (hr' : r' ∈ kids') :
    r' ∈ kids ∨ r' = r := by
  cases pid with
  | none => exact .inl (h ▸ hr')
  | some p =>
    obtain ⟨-, rfl⟩ := h
    rcases List.mem_append.mp hr' with hr' | hr'
    · exact .inl hr'
    · exact .inr (List.mem_singleton.mp hr')

theorem Hired.keeps (h : Hired r kids pid kids') {m : ℕ} {r' : Role} (hm : kids[m]? = some r') :
    kids'[m]? = some r' := by
  cases pid with
  | none => rwa [h]
  | some p =>
    obtain ⟨-, rfl⟩ := h
    rw [List.getElem?_append_left (List.getElem?_eq_some_iff.mp hm).1, hm]

theorem Hired.self {p : ℕ} (h : Hired r kids (some p) kids') :
    ∃ m, p = m + 1 ∧ kids'[m]? = some r := by
  obtain ⟨rfl, rfl⟩ := h
  exact ⟨kids.length, rfl, List.getElem?_concat_length⟩

end Hired

section Setup

variable {i : ℕ} {pipefds : List (ℕ × ℕ)} {Q : Option (ℕ × Option ℕ) → View sh → Prop}

/-- A helper is forked; the shell keeps one end of its pipe, whether that works or not. -/
theorem mwp_forkHelper {r : Role} {child : Prog sh (Option (ℕ × Option ℕ))}
    {keep drop : ℕ} (hlate : v.late = false)
    (hfresh : r ∉ v.kids) (hrole : HasRole stages r)
    (hchild : kwp lim True (helperPact env stages) r child (fun _ _ _ => False) v.fds
      ((helperPact env stages).bytes r))
    (hparent : ∀ pid kids, Hired r v.kids pid kids →
      Q (some (keep, pid)) ⟨Function.update (closed fds v.fds) drop none, kids, v.late⟩) :
    mwp lim True (helperPact env stages) (forkHelper r child fds keep drop) Q v := by
  refine mwp_fork hfresh hlate hrole hchild (mwp_bind (mwp_closeFds (mwp_bind (mwp_close ?_))))
    (mwp_bind (mwp_closeFds (mwp_bind (mwp_close ?_))))
  · exact hparent (some _) _ ⟨rfl, rfl⟩
  · exact hparent none _ rfl

theorem mwp_setupInputRedirection {inputFiles : List Str}
    (hlate : v.late = false)
    (hf : Only (ShellEnd i) v.fds) (hP : PipesOpen pipefds v.fds)
    (hfresh : Role.writer i ∉ v.kids) (hi : i < stages.length)
    (hsize : inputSize env inputFiles ≤ stageInput env stages i) (hnone : Q none v)
    (hsome : ∀ a pid g kids, Plugged (.read (.input i)) v.fds (some a) g →
      Hired (.writer i) v.kids pid kids → Q (some (a, pid)) ⟨g, kids, v.late⟩) :
    mwp lim True (helperPact env stages) (setupInputRedirection env i inputFiles pipefds) Q v := by
  refine mwp_bind (mwp_pipe hlate (fun a b ha hb hab => ?_) ?_)
  · refine mwp_bind (mwp_openEach (f := piped (.input i) a b v.fds) Opened.nil (fun fds g hg => ?_)
      fun fds g hg => ?_)
    · refine mwp_bind (mwp_note (mwp_bind (mwp_closeFds ?_)))
      refine mwp_bind (mwp_close (mwp_bind (mwp_close ?_)))
      have hback : closed fds g = piped (.input i) a b v.fds := hg.closed_eq
      change Q none ⟨Function.update (Function.update (closed fds g) a none) b none, _, _⟩
      rw [hback, unpiped ha hb hab]
      exact hnone
    · refine mwp_forkHelper hlate hfresh hi ?_ fun pid kids hkids => ?_
      · refine kwp_writerChild hf hP hb hab hg (fun file hfile => ?_) ?_
        · exact (List.of_mem_zip hfile).1
        · exact le_trans (inputSize_zip_le env fds inputFiles) hsize
      · refine hsome a pid _ kids ?_ hkids
        rw [hg.closed_eq]
        exact plugged_read ha hb hab
  · exact mwp_bind (mwp_note hnone)

theorem mwp_setupOutputRedirection {outputFiles : List (Str × Bool)}
    (hlate : v.late = false)
    (hf : Only (KidEnd (.reader i)) v.fds) (hwrite : NoEnd (.write (.output i)) v.fds)
    (hP : PipesOpen pipefds v.fds) (hfresh : Role.reader i ∉ v.kids)
    (hrole : HasRole stages (.reader i)) (hnone : Q none v)
    (hsome : ∀ b pid g kids, Plugged (.write (.output i)) v.fds (some b) g →
      Hired (.reader i) v.kids pid kids → Q (some (b, pid)) ⟨g, kids, v.late⟩) :
    mwp lim True (helperPact env stages) (setupOutputRedirection i outputFiles pipefds) Q v := by
  refine mwp_bind (mwp_bind (mwp_openEach (f := v.fds) Opened.nil (fun fds g hg => ?_)
    fun fds g hg => mwp_bind (mwp_pipe hlate (fun a b ha hb hab => ?_) ?_)))
  · refine mwp_bind (mwp_note (mwp_bind (mwp_closeFds ?_)))
    change Q none ⟨closed fds g, _, _⟩
    rw [hg.closed_eq]
    exact hnone
  · have hafds : v.fds a = none := hg.same a (hg.notMem ha) ▸ ha
    refine mwp_forkHelper hlate hfresh hrole (kwp_readerChild hf hwrite hP hafds hab hg)
      fun pid kids hkids => hsome b pid _ kids ?_ hkids
    rw [update_closed]
    exact hg.closed_plugged (plugged_write ha hb hab)
  · refine mwp_bind (mwp_note (mwp_bind (mwp_closeFds ?_)))
    change Q none ⟨closed fds g, _, _⟩
    rw [hg.closed_eq]
    exact hnone

/-- What setting up the stage `i` has done, as far as it got. -/
structure Staffed (i : ℕ) (v : View sh) (io : StageIo) (v' : View sh) : Prop where
  fds : StageOpen i v.fds io v'.fds
  kids : ∃ kids, Hired (.writer i) v.kids io.writer kids ∧ Hired (.reader i) kids io.reader v'.kids
  late : v'.late = v.late

theorem mwp_setupStage {st : CommandStage} {Q : StageIo × Bool → View sh → Prop}
    (hlate : v.late = false) (hf : Only (ShellEnd i) v.fds)
    (hP : PipesOpen pipefds v.fds) (hst : stages[i]? = some st)
    (hwriter : Role.writer i ∉ v.kids) (hreader : Role.reader i ∉ v.kids)
    (hQ : ∀ io ok v', Staffed i v io v' → (ok = false → io.outFd = none) → Q (io, ok) v') :
    mwp lim True (helperPact env stages) (setupStage env i st pipefds) Q v := by
  -- the output half, from anything that the input half can leave
  have hout : ∀ inFd writer g kids, Plugged (.read (.input i)) v.fds inFd g →
      Hired (.writer i) v.kids writer kids →
      mwp lim True (helperPact env stages) (setupStageOut i st pipefds inFd writer) Q
        ⟨g, kids, v.late⟩ := by
    intro inFd writer g kids hg hkids
    have hnone : ∀ ok, Q ({ inFd := inFd, writer := writer }, ok) ⟨g, kids, v.late⟩ := fun ok =>
      hQ _ ok _ ⟨⟨g, hg, rfl⟩, ⟨kids, hkids, rfl⟩, rfl⟩ fun _ => rfl
    unfold setupStageOut setupOut
    split
    · exact hnone true
    · rename_i hfiles
      refine mwp_bind (mwp_bind (mwp_setupOutputRedirection hlate ?_ ?_ (hP.mono hg.keeps) ?_
        ⟨st, hst, hfiles⟩ (hnone false) fun b pid g' kids' hg' hkids' => ?_))
      · have hkid : Only (KidEnd (.reader i)) v.fds := hf.mono fun e he => shellEnd_reader he
        exact hkid.plugged (e := .read (.input i)) (le_refl i) hg
      · have hno : NoEnd (.write (.output i)) v.fds := hf.noEnd (lt_irrefl i)
        exact hno.plug hg nofun
      · intro hmem
        rcases hkids.mem hmem with hmem | hmem
        · exact hreader hmem
        · cases hmem
      · exact hQ _ true _ ⟨⟨g, hg, hg'⟩, ⟨kids, hkids, hkids'⟩, rfl⟩ nofun
  unfold setupStage setupIn
  split
  · exact mwp_bind (hout none none v.fds v.kids rfl rfl)
  · have hsize : inputSize env st.inputFiles ≤ stageInput env stages i := by
      unfold stageInput
      rw [hst]
    refine mwp_bind (mwp_bind (mwp_setupInputRedirection hlate hf hP hwriter
      (List.getElem?_eq_some_iff.mp hst).1 hsize ?_ ?_))
    · exact hQ _ false v ⟨⟨v.fds, rfl, rfl⟩, ⟨v.kids, rfl, rfl⟩, rfl⟩ fun _ => rfl
    · exact fun a pid g kids hg hkids => hout (some a) pid g kids hg hkids

end Setup

/-! ### All stages -/

/-- The shell after the stages of `ios` have been set up and the first `k` of them have been
undone: where the ends of the redirections are, and which children the helpers are. -/
structure Shelf (ios : List StageIo) (k : ℕ) (v : View sh) : Prop where
  readEnd : ∀ fd j, v.fds fd = some (.read (.input j)) → k ≤ j ∧ ∃ io, ios[j]? = some io ∧
    io.inFd = some fd
  writeEnd : ∀ fd j, v.fds fd = some (.write (.output j)) → k ≤ j ∧ ∃ io, ios[j]? = some io ∧
    io.outFd = some fd
  noFeed : ∀ j, NoEnd (.write (.input j)) v.fds
  noDrain : ∀ j, NoEnd (.read (.output j)) v.fds
  writer : ∀ j io pid, ios[j]? = some io → io.writer = some pid →
    ∃ m, pid = m + 1 ∧ v.kids[m]? = some (.writer j)
  reader : ∀ j io pid, ios[j]? = some io → io.reader = some pid →
    ∃ m, pid = m + 1 ∧ v.kids[m]? = some (.reader j)
  roles : ∀ r ∈ v.kids, ∃ j < ios.length, r = .writer j ∨ r = .reader j

section Shelf

variable {ios : List StageIo} {k : ℕ} {io : StageIo} {st : CommandStage} {v' : View sh}

theorem Shelf.start {late : Bool} (hf : Bare f) :
    Shelf [] 0 ⟨f, [], late⟩ where
  readEnd fd j h := absurd (hf fd _ h 0) (Nat.not_lt_zero j)
  writeEnd fd j h := absurd (hf fd _ h 0) (Nat.not_lt_zero j)
  noFeed j fd h := hf fd _ h 0
  noDrain j fd h := hf fd _ h 0
  writer j io pid h := by cases h
  reader j io pid h := by cases h
  roles r h := by cases h

theorem Shelf.only (h : Shelf ios k v) : Only (ShellEnd ios.length) v.fds := by
  have hlt : ∀ {j : ℕ} {io}, ios[j]? = some io → j < ios.length := fun hj =>
    (List.getElem?_eq_some_iff.mp hj).1
  intro fd e he
  cases e with
  | read t =>
    cases t with
    | input j =>
      obtain ⟨-, io, hio, -⟩ := h.readEnd fd j he
      exact hlt hio
    | output j => exact h.noDrain j fd he
    | _ => trivial
  | write t =>
    cases t with
    | input j => exact h.noFeed j fd he
    | output j =>
      obtain ⟨-, io, hio, -⟩ := h.writeEnd fd j he
      exact hlt hio
    | _ => trivial
  | file n => trivial

/-- One more stage has been set up. -/
theorem Shelf.snoc (h : Shelf ios 0 v)
    (hs : Staffed ios.length v io v') : Shelf (ios ++ [io]) 0 v' := by
  obtain ⟨⟨f₁, hin, hout⟩, ⟨kids, hwriter, hreader⟩, -⟩ := hs
  have hnew : (ios ++ [io])[ios.length]? = some io := List.getElem?_concat_length
  refine ⟨fun fd j he => ?_, fun fd j he => ?_, fun j => ?_, fun j => ?_, ?_, ?_, ?_⟩
  · refine ⟨Nat.zero_le j, ?_⟩
    rcases hout.cases he with ⟨-, hne⟩ | he
    · cases hne
    rcases hin.cases he with ⟨hfd, heq⟩ | he
    · cases heq
      exact ⟨io, hnew, hfd⟩
    · obtain ⟨-, io', hio', hfd⟩ := h.readEnd fd j he
      exact ⟨io', Lib.getElem?_append_of_some hio', hfd⟩
  · refine ⟨Nat.zero_le j, ?_⟩
    rcases hout.cases he with ⟨hfd, heq⟩ | he
    · cases heq
      exact ⟨io, hnew, hfd⟩
    rcases hin.cases he with ⟨-, hne⟩ | he
    · cases hne
    · obtain ⟨-, io', hio', hfd⟩ := h.writeEnd fd j he
      exact ⟨io', Lib.getElem?_append_of_some hio', hfd⟩
  · exact ((h.noFeed j).plug hin nofun).plug hout nofun
  · exact ((h.noDrain j).plug hin nofun).plug hout nofun
  · intro j io' pid hj hpid
    rcases Lib.getElem?_concat_cases hj with hj | ⟨rfl, rfl⟩
    · obtain ⟨m, hm, hkid⟩ := h.writer j io' pid hj hpid
      exact ⟨m, hm, hreader.keeps (hwriter.keeps hkid)⟩
    · rw [hpid] at hwriter
      obtain ⟨m, hm, hkid⟩ := hwriter.self
      exact ⟨m, hm, hreader.keeps hkid⟩
  · intro j io' pid hj hpid
    rcases Lib.getElem?_concat_cases hj with hj | ⟨rfl, rfl⟩
    · obtain ⟨m, hm, hkid⟩ := h.reader j io' pid hj hpid
      exact ⟨m, hm, hreader.keeps (hwriter.keeps hkid)⟩
    · rw [hpid] at hreader
      exact hreader.self
  · intro r hr
    rw [List.length_append, List.length_singleton]
    rcases hreader.mem hr with hr | rfl
    · rcases hwriter.mem hr with hr | rfl
      · obtain ⟨j, hj, hrole⟩ := h.roles r hr
        exact ⟨j, by omega, hrole⟩
      · exact ⟨ios.length, by omega, .inl rfl⟩
    · exact ⟨ios.length, by omega, .inr rfl⟩

/-- The shell closes the ends of the next stage. -/
theorem Shelf.close (h : Shelf ios k v) (hio : ios[k]? = some io) :
    Shelf ios (k + 1)
      ⟨closed io.outFd.toList (closed io.inFd.toList v.fds), v.kids, v.late⟩ := by
  refine ⟨fun fd j he => ?_, fun fd j he => ?_, fun j => ?_, fun j => ?_, h.writer, h.reader,
    h.roles⟩
  · obtain ⟨hin, hold⟩ := of_closed (of_closed he).2
    obtain ⟨hk, io', hio', hfd⟩ := h.readEnd fd j hold
    refine ⟨Nat.lt_of_le_of_ne hk ?_, io', hio', hfd⟩
    rintro rfl
    rw [hio] at hio'
    cases hio'
    exact hin (Option.mem_toList.mpr hfd)
  · obtain ⟨hout, he⟩ := of_closed he
    obtain ⟨hk, io', hio', hfd⟩ := h.writeEnd fd j (of_closed he).2
    refine ⟨Nat.lt_of_le_of_ne hk ?_, io', hio', hfd⟩
    rintro rfl
    rw [hio] at hio'
    cases hio'
    exact hout (Option.mem_toList.mpr hfd)
  · exact ((h.noFeed j).closed _).closed _
  · exact ((h.noDrain j).closed _).closed _

/-- The launch is undone: the shell waits for the helpers of the stage whose ends it has
closed last. -/
theorem Shelf.waitsFor (h : Shelf ios (k + 1) v) (hio : ios[k]? = some io) {pid : ℕ}
    (hpid : io.writer = some pid ∨ io.reader = some pid) : WaitsFor pid v := by
  have hundone : (∀ r ∈ v.kids, ∃ j, r = .writer j ∨ r = .reader j) ∧
      Only (ClearedEnd k) v.fds := by
    refine ⟨fun r hr => ?_, fun fd e he => ?_⟩
    · obtain ⟨j, -, hrole⟩ := h.roles r hr
      exact ⟨j, hrole⟩
    · cases e with
      | read t =>
        cases t with
        | input j => exact (h.readEnd fd j he).1
        | _ => trivial
      | write t =>
        cases t with
        | output j => exact (h.writeEnd fd j he).1
        | _ => trivial
      | file n => trivial
  rcases hpid with hpid | hpid
  · obtain ⟨m, hm, hkid⟩ := h.writer k io pid hio hpid
    exact ⟨m, k, hm, .inl hkid, .inr hundone⟩
  · obtain ⟨m, hm, hkid⟩ := h.reader k io pid hio hpid
    exact ⟨m, k, hm, .inr hkid, .inr hundone⟩

theorem Shelf.setLate (h : Shelf ios k v) (late : Bool) :
    Shelf ios k ⟨v.fds, v.kids, late⟩ :=
  ⟨h.readEnd, h.writeEnd, h.noFeed, h.noDrain, h.writer, h.reader, h.roles⟩

end Shelf

theorem mwp_waitOpt {pid : Option ℕ} {Q : Unit → View sh → Prop}
    (h : ∀ p, pid = some p → WaitsFor p v)
    (hQ : ∀ late, Q () ⟨v.fds, v.kids, late⟩) :
    mwp lim True (helperPact env stages) (waitOpt pid) Q v := by
  cases pid with
  | none => exact hQ v.late
  | some p =>
    refine mwp_bind (mwp_call.mpr ⟨h p rfl, fun x f hf => ?_⟩)
    have hf : f = v.fds := hf
    rw [hf]
    exact hQ _

theorem mwp_undoStage {ios : List StageIo} {k : ℕ} {io : StageIo} {Q : Unit → View sh → Prop}
    (h : Shelf ios k v) (hio : ios[k]? = some io)
    (hQ : ∀ v', Shelf ios (k + 1) v' → v'.kids = v.kids → Q () v') :
    mwp lim True (helperPact env stages) (undoStage io) Q v := by
  have hclosed := h.close hio
  refine mwp_bind (mwp_closeOpt (mwp_bind (mwp_closeOpt (mwp_bind
    (mwp_waitOpt ?_ fun late => ?_)))))
  · exact fun p hp => hclosed.waitsFor hio (.inl hp)
  · have hlate := hclosed.setLate late
    refine mwp_waitOpt (fun p hp => hlate.waitsFor hio (.inr hp)) fun late' => ?_
    exact hQ _ (hlate.setLate late') rfl

theorem mwp_undoStages {ios : List StageIo} {k : ℕ} {rest : List Setup}
    {Q : Unit → View sh → Prop} (h : Shelf ios k v)
    (hrest : ∀ j s, rest[j]? = some s → ios[k + j]? = some s.io) (hQ : ∀ v', Q () v') :
    mwp lim True (helperPact env stages) (undoStages rest) Q v := by
  induction rest generalizing k v with
  | nil => exact hQ v
  | cons s rest ih =>
    refine mwp_bind (mwp_undoStage h (hrest 0 s rfl) fun v' hv' _ => ih hv' fun j s' hs' => ?_)
    have hnext := hrest (j + 1) s' hs'
    rwa [← Nat.add_assoc, Nat.add_right_comm] at hnext

/-- Only the links between the stages are open, besides files. -/
def LinksOnly (pipefds : List (ℕ × ℕ)) (f : Fds sh) : Prop := PipesOpen pipefds f ∧ Bare f

theorem mwp_makePipes {n k : ℕ} {pipefds : List (ℕ × ℕ)}
    {Q : List (ℕ × ℕ) × Bool → View sh → Prop} (hlate : v.late = false)
    (hf : LinksOnly pipefds v.fds)
    (hQ : ∀ pipefds ok g, LinksOnly pipefds g → Q (pipefds, ok) ⟨g, v.kids, v.late⟩) :
    mwp lim True (helperPact env stages) (makePipes n k pipefds) Q v := by
  induction n generalizing k pipefds v with
  | zero => exact hQ pipefds true v.fds hf
  | succ n ih =>
    refine mwp_bind (mwp_pipe hlate (fun a b ha hb hab => ?_) ?_)
    · refine ih hlate ⟨fun fd hfd => ?_, fun fd e he => ?_⟩ hQ
      · unfold pipeEnds at hfd
        rw [List.flatMap_append] at hfd
        rcases List.mem_append.mp hfd with hfd | hfd
        · exact hf.1.mono (piped_of_some ha hb) fd hfd
        · simp only [List.flatMap_cons, List.flatMap_nil, List.append_nil, List.mem_cons,
            List.not_mem_nil, or_false] at hfd
          rcases hfd with rfl | rfl
          · exact fun hnone => Option.some_ne_none _ ((piped_read hab).symm.trans hnone)
          · exact fun hnone => Option.some_ne_none _ (piped_write.symm.trans hnone)
      · rcases piped_cases he with ⟨-, rfl⟩ | ⟨-, -, rfl⟩ | ⟨-, -, hold⟩
        · exact fun _ => trivial
        · exact fun _ => trivial
        · exact hf.2 fd e hold
    · exact mwp_bind (mwp_note (hQ pipefds false v.fds hf))

theorem mwp_setupStages {pipefds : List (ℕ × ℕ)} {rest : List CommandStage}
    {Q : List Setup × Bool → View sh → Prop} (setups : List Setup)
    (h : Shelf (setups.map (·.io)) 0 v) (hlate : v.late = false)
    (hP : PipesOpen pipefds v.fds)
    (hrest : ∀ j, rest[j]? = stages[setups.length + j]?)
    (hQ : ∀ setups ok v', Shelf (setups.map (·.io)) 0 v' → v'.late = false →
      Q (setups, ok) v') :
    mwp lim True (helperPact env stages) (setupStages env pipefds rest setups.length setups) Q
      v := by
  induction rest generalizing setups v with
  | nil => exact hQ setups true v h hlate
  | cons st rest ih =>
    have hlen : (setups.map (·.io)).length = setups.length := List.length_map ..
    have hnew : ∀ r : Role, (r = .writer setups.length ∨ r = .reader setups.length) →
        r ∉ v.kids := by
      intro r hr hmem
      obtain ⟨j, hj, hrole⟩ := h.roles r hmem
      rw [hlen] at hj
      rcases hr with rfl | rfl <;> rcases hrole with hrole | hrole <;> cases hrole <;> omega
    refine mwp_bind (mwp_setupStage hlate (hlen ▸ h.only) hP (hrest 0).symm (hnew _ (.inl rfl))
      (hnew _ (.inr rfl)) fun io ok v' hs _ => ?_)
    have hshelf : ∀ resolved,
        Shelf ((setups ++ [(⟨io, resolved⟩ : Setup)]).map (·.io)) 0 v' := by
      intro resolved
      rw [List.map_append]
      exact h.snoc (hlen ▸ hs)
    have hlate' : v'.late = false := hs.late.trans hlate
    cases ok with
    | false => exact hQ _ false v' (hshelf none) hlate'
    | true =>
      have hnext : mwp lim True (helperPact env stages)
          (setupStages env pipefds rest (setups.length + 1)
            (setups ++ [⟨io, env.resolve (commandName st)⟩])) Q v' := by
        have hone : (setups ++ [(⟨io, env.resolve (commandName st)⟩ : Setup)]).length =
            setups.length + 1 := List.length_append
        have hmore := ih _ (hshelf (env.resolve (commandName st))) hlate'
          (hP.mono hs.fds.keeps) fun j => ?_
        · rwa [hone] at hmore
        · rw [hone, Nat.add_right_comm, Nat.add_assoc]
          exact hrest (j + 1)
      dsimp only
      split
      · exact mwp_bind (mwp_note hnext)
      · exact hnext

/-! ### Forking the stages -/

/-- Calls that always are fine. -/
theorem mwp_calls {α : Type} {p : Prog sh α} (hp : p.Calls Routine) :
    mwp lim True (helperPact env stages) p (fun _ _ => True) v :=
  mwp_of_calls routine_ok hp fun _ _ => trivial

/-- Go past such calls. -/
theorem mwp_routine {α β : Type} {p : Prog sh α} {q : α → Prog sh β} {Q : β → View sh → Prop}
    (hp : p.Calls Routine)
    (hq : ∀ a f, mwp lim True (helperPact env stages) (q a) Q ⟨f, v.kids, v.late⟩) :
    mwp lim True (helperPact env stages) (p >>= q) Q v :=
  mwp_bind (mwp_of_calls routine_ok hp hq)

/-- The stages that have been forked are children of the shell. -/
def Forks (pids : List (Option ℕ)) (kids : List Role) : Prop :=
  ∀ j pid, pids[j]? = some (some pid) → Role.stage j ∈ kids

theorem Forks.snoc {kids : List Role} (h : Forks pids kids)
    {child : Option ℕ} {kids' : List Role} (hkids : Hired (.stage pids.length) kids child kids') :
    Forks (pids ++ [child]) kids' := by
  intro j pid hj
  rcases Nat.lt_trichotomy j pids.length with hlt | rfl | hgt
  · rw [List.getElem?_append_left hlt] at hj
    obtain ⟨m, hm⟩ := List.mem_iff_getElem?.mp (h j pid hj)
    exact List.mem_of_getElem? (hkids.keeps hm)
  · rw [List.getElem?_concat_length] at hj
    cases hj
    obtain ⟨m, -, hm⟩ := hkids.self
    exact List.mem_of_getElem? hm
  · rw [List.getElem?_eq_none (by simp; omega)] at hj
    cases hj

theorem mwp_forkStages {child : StageProg} {rest : List (CommandStage × Setup)}
    {Q : List (Option ℕ) → View sh → Prop}
    (pids : List (Option ℕ)) (hlate : v.late = false)
    (hlen : pids.length + rest.length ≤ stages.length)
    (hchild : ∀ i st io path pids, kwp lim True (helperPact env stages) (.stage i)
      (child i st io path pids) (fun _ _ _ => False) v.fds 0)
    (hfresh : ∀ j, pids.length ≤ j → Role.stage j ∉ v.kids) (hpids : Forks pids v.kids)
    (hQ : ∀ pids kids, (∀ (m : ℕ) r, v.kids[m]? = some r → kids[m]? = some r) → Forks pids kids →
      Q pids ⟨v.fds, kids, v.late⟩) :
    mwp lim True (helperPact env stages) (forkStages child rest pids.length pids) Q v := by
  induction rest generalizing pids v with
  | nil => exact hQ pids v.kids (fun _ _ h => h) hpids
  | cons x rest ih =>
    obtain ⟨st, s⟩ := x
    rw [List.length_cons] at hlen
    -- the rest of the loop, once the process of this stage exists or not
    have hnext : ∀ pid kids, Hired (.stage pids.length) v.kids pid kids →
        mwp lim True (helperPact env stages) (forkStages child rest (pids.length + 1)
          (pids ++ [pid])) Q ⟨v.fds, kids, v.late⟩ := by
      intro pid kids hkids
      have hone : (pids ++ [pid]).length = pids.length + 1 := List.length_append
      rw [← hone]
      refine ih (v := ⟨v.fds, kids, v.late⟩) _ hlate (by omega) hchild (fun j hj hmem => ?_)
        (hpids.snoc hkids) fun pids' kids' hkeep hforks => ?_
      · rw [hone] at hj
        rcases hkids.mem hmem with hmem | hmem
        · exact hfresh j (by omega) hmem
        · cases hmem
          omega
      · exact hQ pids' kids' (fun m r hm => hkeep m r (hkids.keeps hm)) hforks
    unfold forkStages
    cases s.resolved with
    | none => exact hnext none v.kids rfl
    | some path =>
      have hrole : pids.length < stages.length := by omega
      refine mwp_fork (hfresh _ le_rfl) hlate hrole (hchild _ _ _ _ _) ?_ ?_
      · exact mwp_bind (mwp_setpgid (hnext (some _) _ ⟨rfl, rfl⟩))
      · exact mwp_bind (mwp_note (hnext none _ rfl))

/-- The loop that waits: each helper belongs to a stage that has been forked. -/
theorem mwp_waitStages {rest : List (Setup × Option ℕ)} {i : ℕ} {leader : Status}
    {Q : Status → View sh → Prop}
    (hwaits : ∀ s pid h, (s, some pid) ∈ rest → s.io.writer = some h ∨ s.io.reader = some h →
      ∀ f late, WaitsFor h ⟨f, v.kids, late⟩)
    (hQ : ∀ status f late, Q status ⟨f, v.kids, late⟩) :
    mwp lim True (helperPact env stages) (waitStages rest i leader) Q v := by
  induction rest generalizing i leader v with
  | nil => exact hQ leader v.fds v.late
  | cons x rest ih =>
    obtain ⟨s, child⟩ := x
    have hrest : ∀ {f late leader}, mwp lim True (helperPact env stages)
        (waitStages rest (i + 1) leader) Q ⟨f, v.kids, late⟩ := by
      intro f late leader
      exact ih (fun s pid h hmem => hwaits s pid h (List.mem_cons_of_mem _ hmem)) hQ
    cases child with
    | none => exact hrest
    | some pid =>
      have hhelper : ∀ h, s.io.writer = some h ∨ s.io.reader = some h →
          ∀ f late, WaitsFor h ⟨f, v.kids, late⟩ := fun h =>
        hwaits s pid h List.mem_cons_self
      refine mwp_bind (mwp_call.mpr ⟨trivial, fun status f _ => ?_⟩)
      refine mwp_bind (mwp_waitOpt (fun h hh => hhelper h (.inl hh) _ _) fun late => ?_)
      refine mwp_bind (mwp_waitOpt (fun h hh => hhelper h (.inr hh) _ _) fun late' => ?_)
      exact hrest

/-! ### Pipelines -/

section Pipelines

variable {pipefds : List (ℕ × ℕ)} {setups : List Setup}

theorem mwp_preparePipeline {launch : List (ℕ × ℕ) → List Setup → Prog sh ℤ}
    (hf : ShellTable f)
    (hlaunch : ∀ pipefds setups v, Shelf (setups.map (·.io)) 0 v → v.late = false →
      mwp lim True (helperPact env stages) (launch pipefds setups) (fun _ _ => True) v) :
    mwp lim True (helperPact env stages) (preparePipeline env stages launch) (fun _ _ => True)
      ⟨f, [], false⟩ := by
  have hnil : LinksOnly [] f := ⟨nofun, hf.bare⟩
  refine mwp_bind (mwp_makePipes rfl hnil fun pipefds ok g hg => ?_)
  cases ok with
  | false => exact mwp_bind (mwp_closeFds trivial)
  | true =>
    refine mwp_bind (mwp_setupStages [] (Shelf.start hg.2) rfl hg.1 (fun j => ?_)
      fun setups ok v' hshelf hlate => ?_)
    · rw [List.length_nil, Nat.zero_add]
    · cases ok with
      | true => exact hlaunch pipefds setups v' hshelf hlate
      | false =>
        refine mwp_bind (mwp_undoStages hshelf (fun j s hs => ?_) fun v'' => ?_)
        · rw [Nat.zero_add, List.getElem?_map, hs]
          rfl
        · exact mwp_bind (mwp_closeFds trivial)

theorem Shelf.only_stage {ios : List StageIo} {k : ℕ} (h : Shelf ios k v) (i : ℕ) :
    Only (KidEnd (.stage i)) v.fds := h.only.mono fun _ he => shellEnd_stage he

theorem Shelf.stage_notMem {ios : List StageIo} {k : ℕ} (h : Shelf ios k v) (i : ℕ) :
    Role.stage i ∉ v.kids := by
  intro hmem
  obtain ⟨j, -, hrole | hrole⟩ := h.roles _ hmem
  · cases hrole
  · cases hrole

/-- Once the stages are forked, the shell waits only for helpers of those. -/
theorem Shelf.waitsFor_forked {kids : List Role}
    (h : Shelf (setups.map (·.io)) 0 v)
    (hkeep : ∀ (m : ℕ) r, v.kids[m]? = some r → kids[m]? = some r) (hforks : Forks pids kids)
    {s : Setup} {pid p : ℕ} (hs : (s, some pid) ∈ setups.zip pids)
    (hp : s.io.writer = some p ∨ s.io.reader = some p) (f : Fds sh) (late : Bool) :
    WaitsFor p ⟨f, kids, late⟩ := by
  obtain ⟨j, hj⟩ := List.mem_iff_getElem?.mp hs
  obtain ⟨hsetup, hpid⟩ := List.getElem?_zip_eq_some.mp hj
  have hio : (setups.map (·.io))[j]? = some s.io := by
    rw [List.getElem?_map, hsetup]
    rfl
  have hstage := hforks j pid hpid
  rcases hp with hp | hp
  · obtain ⟨m, hm, hkid⟩ := h.writer j s.io p hio hp
    exact ⟨m, j, hm, .inl (hkeep m _ hkid), .inl hstage⟩
  · obtain ⟨m, hm, hkid⟩ := h.reader j s.io p hio hp
    exact ⟨m, j, hm, .inr (hkeep m _ hkid), .inl hstage⟩

theorem mwp_pipelineParent
    (hwaits : ∀ s pid h, (s, some pid) ∈ setups.zip pids →
      s.io.writer = some h ∨ s.io.reader = some h → ∀ f late, WaitsFor h ⟨f, v.kids, late⟩) :
    mwp lim True (helperPact env stages) (pipelineParent stages pipefds setups pids)
      (fun _ _ => True) v := by
  unfold pipelineParent
  cases leaderOf pids with
  | none =>
    refine mwp_bind (mwp_note (mwp_routine (calls_closeFds routine_close _) fun _ f => ?_))
    refine mwp_routine (calls_closeStages routine_close _) fun _ f => ?_
    exact mwp_bind (mwp_waitStages hwaits fun _ _ _ => trivial)
  | some leader =>
    refine mwp_bind (mwp_note ?_)
    refine mwp_routine (calls_registerStages routine_book _) fun _ f => ?_
    refine mwp_bind (mwp_note (mwp_bind (mwp_note ?_)))
    refine mwp_routine (calls_closeFds routine_close _) fun _ f => ?_
    refine mwp_routine (calls_closeStages routine_close _) fun _ f => ?_
    refine mwp_bind (mwp_waitStages hwaits fun status f late => mwp_bind (mwp_note ?_))
    exact mwp_calls (calls_finishJob trivial (fun _ => trivial) trivial)

theorem mwp_launchPipeline (h : Shelf (setups.map (·.io)) 0 v) (hlate : v.late = false) :
    mwp lim True (helperPact env stages) (launchPipeline stages pipefds setups)
      (fun _ _ => True) v := by
  refine mwp_bind (mwp_note (mwp_bind (mwp_forkStages [] hlate (by simp)
    (fun i st io path pids => ?_) (fun j _ => h.stage_notMem j) nofun
    fun pids kids hkeep hforks => ?_)))
  · exact kwp_stageChild (h.only_stage i)
  · exact mwp_pipelineParent fun s pid p hs hp => h.waitsFor_forked hkeep hforks hs hp

theorem mwp_launchBackground (h : Shelf (setups.map (·.io)) 0 v) (hlate : v.late = false) :
    mwp lim True (helperPact env stages) (launchBackground stages pipefds setups)
      (fun _ _ => True) v := by
  have honly : Only (fun e => ∀ i, KidEnd (.stage i) e) v.fds := fun fd e he i =>
    h.only_stage i fd e he
  refine mwp_bind (mwp_note (mwp_bind ?_))
  refine mwp_gate hlate (fun _ => trivial) (fun _ => trivial) honly fun sync g hg => ?_
  refine mwp_bind (mwp_forkStages [] hlate (by simp) (fun i st io path pids => ?_)
    (fun j _ => h.stage_notMem j) nofun fun pids kids _ _ => ?_)
  · exact kwp_stageChildBg fun fd e he => hg fd e he i
  · exact mwp_calls (calls_backgroundParent routine_close routine_book)

end Pipelines

/-! ### A single command -/

section Command

variable {st : CommandStage}

theorem mwp_commandParent {pid : ℕ} {io : StageIo}
    (hwaits : ∀ h, io.writer = some h ∨ io.reader = some h →
      ∀ f late, WaitsFor h ⟨f, v.kids, late⟩) :
    mwp lim True (helperPact env stages) (commandParent pid st io) (fun _ _ => True) v := by
  refine mwp_bind (mwp_setpgid (mwp_routine (calls_addHelpers routine_book _) fun _ f => ?_))
  refine mwp_bind (mwp_note (mwp_bind (mwp_note (mwp_bind (mwp_note ?_)))))
  refine mwp_routine (calls_closeOpt routine_close _) fun _ f => ?_
  refine mwp_routine (calls_closeOpt routine_close _) fun _ f => mwp_bind (mwp_note ?_)
  refine mwp_bind (mwp_call.mpr ⟨trivial, fun status f _ => mwp_bind (mwp_note ?_)⟩)
  refine mwp_bind (mwp_waitOpt (fun h hh => hwaits h (.inl hh) _ _) fun late => ?_)
  refine mwp_bind (mwp_waitOpt (fun h hh => hwaits h (.inr hh) _ _) fun late => ?_)
  exact mwp_calls (calls_finishJob trivial (fun _ => trivial) trivial)

/-- A single command is given up, or it is launched with what has been set up. -/
theorem mwp_prepareCommand {α : Type} {failed : α} {launch : Str → StageIo → Prog sh α}
    {Q : α → View sh → Prop} (hf : Bare f)
    (hlaunch : ∀ path io v, Shelf [io] 0 v → v.late = false →
      mwp lim True (helperPact env [st]) (launch path io) Q v) (hQ : ∀ v, Q failed v) :
    mwp lim True (helperPact env [st]) (prepareCommand env st failed launch) Q
      ⟨f, [], false⟩ := by
  have hstart : Shelf [] 0 ⟨f, [], false⟩ := Shelf.start hf
  unfold prepareCommand
  split
  · exact mwp_bind (mwp_note (hQ _))
  refine mwp_bind (mwp_setupStage rfl hstart.only (pipesOpen_nil _) rfl List.not_mem_nil
    List.not_mem_nil fun io ok v hs hfail => ?_)
  have hshelf : Shelf [io] 0 v := hstart.snoc hs
  cases ok with
  | false =>
    have hio : [io][0]? = some io := rfl
    have hclosed := hshelf.close hio
    rw [hfail rfl, Option.toList_none, closed_nil] at hclosed
    refine mwp_bind (mwp_closeOpt (mwp_bind (mwp_waitOpt (fun p hp => ?_) fun _ => hQ _)))
    exact hclosed.waitsFor hio (.inl hp)
  | true => exact mwp_bind (mwp_note (hlaunch _ io v hshelf hs.late))

theorem mwp_executeWithRedirection (hf : ShellTable f) :
    mwp lim True (helperPact env [st]) (executeWithRedirection env st) (fun _ _ => True)
      ⟨f, [], false⟩ := by
  refine mwp_prepareCommand hf.bare (fun path io v hshelf hlate => ?_) fun _ => trivial
  refine mwp_fork (hshelf.stage_notMem 0) hlate Nat.zero_lt_one ?_ ?_ ?_
  · exact kwp_commandChild (hshelf.only_stage 0)
  · have hhired : Hired (.stage 0) v.kids (some (v.kids.length + 1)) (v.kids ++ [.stage 0]) :=
      ⟨rfl, rfl⟩
    have hnone : Forks [] v.kids := nofun
    have hsetup : Shelf ([(⟨io, none⟩ : Setup)].map (·.io)) 0 v := hshelf
    refine mwp_commandParent fun h hh f late => ?_
    exact hsetup.waitsFor_forked (fun m r hm => hhired.keeps hm) (hnone.snoc hhired)
      (List.mem_singleton.mpr rfl) hh f late
  · refine mwp_bind (mwp_note (mwp_bind (mwp_note (mwp_bind ?_))))
    exact mwp_undoStage hshelf rfl fun _ _ _ => trivial

theorem mwp_executeWithRedirectionBg {sync : Option (ℕ × ℕ)} {Q : Option ℕ → View sh → Prop}
    (hf : Bare f) (hQ : ∀ x v, Q x v) :
    mwp lim True (helperPact env [st]) (executeWithRedirectionBg env st sync) Q
      ⟨f, [], false⟩ := by
  refine mwp_prepareCommand hf (fun path io v hshelf hlate => ?_) fun _ => hQ _ _
  refine mwp_fork (hshelf.stage_notMem 0) hlate Nat.zero_lt_one ?_ ?_ ?_
  · exact kwp_commandChildBg (hshelf.only_stage 0)
  · refine mwp_bind (mwp_setpgid (mwp_routine (calls_addHelpers routine_book _) fun _ f => ?_))
    refine mwp_routine (calls_closeOpt routine_close _) fun _ f => ?_
    refine mwp_routine (calls_closeOpt routine_close _) fun _ f => ?_
    exact mwp_bind (mwp_note (hQ _ _))
  · refine mwp_bind (mwp_note (mwp_bind (mwp_undoStage hshelf rfl fun _ _ _ => ?_)))
    exact mwp_bind (mwp_note (hQ _ _))

/-- So does a single command in the background. -/
theorem mwp_backgroundCommand (hf : ShellTable f) :
    mwp lim True (helperPact env [st]) (backgroundCommand env st) (fun _ _ => True)
      ⟨f, [], false⟩ := by
  refine mwp_bind (mwp_gate rfl (fun _ => trivial) (fun _ => trivial) hf.bare fun sync g hg => ?_)
  refine mwp_bind (mwp_executeWithRedirectionBg hg fun child v => ?_)
  refine mwp_calls ((calls_closeOpt routine_close _).bind fun _ => ?_)
  cases child with
  | none => exact (calls_closeOpt routine_close _).bind fun _ => trivial
  | some pid =>
    refine ⟨trivial, fun jobId => (calls_note trivial).bind fun _ => ?_⟩
    refine (calls_note trivial).bind fun _ => (calls_note trivial).bind fun _ => ?_
    exact (calls_closeOpt routine_close _).bind fun _ => trivial

end Command

end Redirect
end RuShell
