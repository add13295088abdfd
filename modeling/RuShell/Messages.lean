import RuShell.JobNames
import RuShell.Jobs

/-!
# Storing completion messages

The way of a command line into `pending_msgs`, on arrays: the launching function joins
it in a local array, `job_add` copies that into its table, and when the process has
terminated `sigchld_handler` formats a message around it in another local array and
copies the message into its slot.

The copy into the slot takes the length that `snprintf` returns, which is the length
of the whole message and not of what is in the array.  The name is cut to 255
characters on its way, but nothing cuts it to what is left of 256 characters behind the
rest of the message.

## Main definitions

* `jobAddName`, `queueMessage` — the copies in `job_add` and in the handler.
* `report` — a command line on its whole way.

## Main results

* `completion_message_fits` — **a message that fits is stored in full**.
* `report_outOfRange` — for one that does not, the copy leaves both arrays.
* `queueMessage_refines` — the slots hold what `Jobs.pushPending` queues.
-/

namespace RuShell
namespace Messages

open Lib (CArray Fault Spells Returns)
open Lib.Posix (Status)
open JobNames (CStr joinArgs joinPipeline)
open Jobs (completionMessage pushPending msgLen maxPending JobTables)

/-! ### The copies -/

/-- What is launched in the background. -/
inductive CommandLine
  | single (args : List CStr)
  | pipeline (stages : List (List CStr))

namespace CommandLine

/-- The command line, in full. -/
def text : CommandLine → Str
  | single args => CStr.line args
  | pipeline stages => CStr.pipeline stages

/-- `char cmdline[256]` or `char full_cmdline[256]` -/
def cmdline : CommandLine → Except Fault (CArray 256 Char)
  | single args => joinArgs args .blank
  | pipeline stages => joinPipeline stages .blank

end CommandLine

/-- The name in the entry that `job_add` fills. -/
def jobAddName (entry cmdline : CArray 256 Char) : Except Fault (CArray 256 Char) := do
  let entry ← Lib.strncpy nul entry cmdline.read (256 - 1)
  entry.write (256 - 1) nul

/-- A message, first into `buf` and then into its slot. -/
def storeMessage (msg : Str) (slot : CArray msgLen Char) : Except Fault (CArray msgLen Char) := do
  let (buf, len) ← Lib.snprintf nul (.blank : CArray msgLen Char) msg
  if len ≤ 0 then .ok slot else Lib.memcpy slot buf.read (len + 1)

/-- The end of the loop of `sigchld_handler`: from the name of a job to the slot of its
message. -/
def queueMessage (cmdName : CArray 256 Char) (pid : ℕ) (status : Status)
    (slot : CArray msgLen Char) : Except Fault (CArray msgLen Char) := do
  let name ← Lib.text nul cmdName
  match completionMessage name pid status with
  | none => .ok slot
  | some msg => storeMessage msg slot

/-- A command line on its way into `pending_msgs[pending_count]`. -/
def report (line : CommandLine) (entry : CArray 256 Char) (pid : ℕ) (status : Status)
    (slot : CArray msgLen Char) : Except Fault (CArray msgLen Char) := do
  let cmdline ← line.cmdline
  let cmdName ← jobAddName entry cmdline
  queueMessage cmdName pid status slot

/-! ### Names -/

theorem cmdline_spells (line : CommandLine) :
    Returns line.cmdline fun b => Spells nul b.read (line.text.take 255) := by
  cases line with
  | single args => exact JobNames.joinArgs_spells (by decide) le_rfl args _
  | pipeline stages => exact JobNames.joinPipeline_spells (by decide) le_rfl stages _

/-- The name in the table is what the list model has there. -/
theorem jobAddName_spells {entry cmdline : CArray 256 Char} {s : Str}
    (hs : Spells nul cmdline.read s) :
    Returns (jobAddName entry cmdline) fun b => Spells nul b.read (Jobs.strncpy 256 s) :=
  Lib.strncpyCut_spells hs (by decide)

/-! ### Messages -/

/-- What the handler puts behind the name. -/
def ending (pid : ℕ) (status : Status) : Option Str := completionMessage [] pid status

theorem completionMessage_eq (name : Str) (pid : ℕ) (status : Status) :
    completionMessage name pid status = (ending pid status).map (name ++ ·) := by
  cases status with
  | exited | signaled => simp [ending, completionMessage]
  | stopped => rfl

theorem nul_notMem_toString (n : ℕ) : nul ∉ (toString n).toList := by
  intro hmem
  have hdigit : nul.isDigit = true := by
    have htext : (toString n).toList = Nat.toDigits 10 n := String.toList_ofList
    rw [htext] at hmem
    exact Nat.isDigit_of_mem_toDigits (by decide) (by decide) hmem
  exact absurd hdigit (by decide)

theorem nul_notMem_ending {pid : ℕ} {status : Status} {e : Str} (h : ending pid status = some e) :
    nul ∉ e := by
  cases status with
  | exited | signaled =>
    cases h
    simp only [List.mem_append, not_or]
    exact ⟨⟨⟨by decide, by decide⟩, nul_notMem_toString pid⟩, by decide⟩
  | stopped => cases h

theorem ending_length_pos {pid : ℕ} {status : Status} {e : Str} (h : ending pid status = some e) :
    0 < e.length := by
  cases status with
  | exited | signaled =>
    cases h
    simp
  | stopped => cases h

section Queue

variable {cmdName : CArray 256 Char} {name msg : Str} {pid : ℕ} {status : Status}

/-- What the message is made of. -/
theorem message_cases (h : completionMessage name pid status = some msg) :
    ∃ e, ending pid status = some e ∧ msg = name ++ e := by
  rw [completionMessage_eq] at h
  obtain ⟨e, he, hmsg⟩ := Option.map_eq_some_iff.mp h
  exact ⟨e, he, hmsg.symm⟩

theorem storeMessage_eq (hnul : nul ∉ msg) (hpos : 0 < msg.length) (slot : CArray msgLen Char) :
    ∃ buf : CArray msgLen Char, Spells nul buf.read (msg.take (msgLen - 1)) ∧
      storeMessage msg slot = Lib.memcpy slot buf.read (msg.length + 1) := by
  have hprint := Lib.snprintf_spells (b := (.blank : CArray msgLen Char)) hnul (by decide)
  obtain ⟨⟨buf, len⟩, hr, hbuf, rfl⟩ := hprint
  refine ⟨buf, hbuf, ?_⟩
  rw [storeMessage, hr]
  exact if_neg (by omega)

theorem queueMessage_eq (hname : Spells nul cmdName.read name)
    (hmsg : completionMessage name pid status = some msg) (slot : CArray msgLen Char) :
    ∃ buf : CArray msgLen Char, Spells nul buf.read (msg.take (msgLen - 1)) ∧
      queueMessage cmdName pid status slot = Lib.memcpy slot buf.read (msg.length + 1) := by
  obtain ⟨e, he, heq⟩ := message_cases hmsg
  have hnul : nul ∉ msg := by
    rw [heq, List.mem_append, not_or]
    exact ⟨hname.noNul, nul_notMem_ending he⟩
  have hpos : 0 < msg.length := by
    have hpos := ending_length_pos he
    rw [heq, List.length_append]
    omega
  obtain ⟨buf, hbuf, hstore⟩ := storeMessage_eq hnul hpos slot
  refine ⟨buf, hbuf, ?_⟩
  simp only [queueMessage, Lib.text_of_spells hname, bind, Except.bind, hmsg, hstore]

theorem queueMessage_spells (hname : Spells nul cmdName.read name)
    (hmsg : completionMessage name pid status = some msg) (hfit : msg.length < msgLen)
    (slot : CArray msgLen Char) :
    Returns (queueMessage cmdName pid status slot) fun b => Spells nul b.read msg := by
  obtain ⟨buf, hbuf, heq⟩ := queueMessage_eq hname hmsg slot
  rw [List.take_of_length_le (by omega)] at hbuf
  have hcopy := Lib.memcpy_reads (b := slot) hbuf.reads (by
    rw [List.length_append, List.length_singleton]
    omega)
  rw [List.length_append, List.length_singleton] at hcopy
  rw [heq]
  exact hcopy.mono fun b hb => ⟨hbuf.noNul, hb⟩

/-- The copy of a message that is too long reads behind `buf`. -/
theorem queueMessage_outOfRange (hname : Spells nul cmdName.read name)
    (hmsg : completionMessage name pid status = some msg) (hlong : msgLen ≤ msg.length)
    (slot : CArray msgLen Char) :
    queueMessage cmdName pid status slot = .error .outOfRange := by
  obtain ⟨buf, hbuf, heq⟩ := queueMessage_eq hname hmsg slot
  have hlen : (msg.take (msgLen - 1) ++ [nul]).length = msgLen := by
    rw [List.length_append, List.length_take, List.length_singleton]
    unfold msgLen at hlong ⊢
    omega
  rw [heq]
  refine Lib.memcpy_outOfRange hbuf.reads ?_ (by omega)
  rw [hlen]
  exact if_neg (lt_irrefl _)

/-- **The slots hold what is queued**: as long as messages fit the list model queues
them, and it notes an overrun where the copy leaves the arrays. -/
theorem queueMessage_refines {t : JobTables} (hname : Spells nul cmdName.read name)
    (hmsg : completionMessage name pid status = some msg) (hroom : t.pending.length < maxPending)
    (slot : CArray msgLen Char) :
    (Returns (queueMessage cmdName pid status slot) (fun b => Spells nul b.read msg) ∧
      pushPending t msg = { t with pending := t.pending ++ [msg] }) ∨
    (queueMessage cmdName pid status slot = .error .outOfRange ∧
      pushPending t msg = { t with overrun := true }) := by
  unfold pushPending
  rw [if_pos hroom]
  by_cases hfit : msg.length < msgLen
  · rw [if_pos hfit]
    exact Or.inl ⟨queueMessage_spells hname hmsg hfit slot, rfl⟩
  · rw [if_neg hfit]
    exact Or.inr ⟨queueMessage_outOfRange hname hmsg (by omega) slot, rfl⟩

end Queue

/-! ### The whole way -/

section Report

variable {line : CommandLine} {msg : Str} {pid : ℕ} {status : Status}

/-- The name that arrives in the table. -/
theorem name_spells (line : CommandLine) (entry : CArray 256 Char) :
    Returns (line.cmdline >>= jobAddName entry) fun b =>
      Spells nul b.read (line.text.take 255) := by
  refine (cmdline_spells line).bind fun cmdline hcmdline => ?_
  refine (jobAddName_spells hcmdline).mono fun b hb => ?_
  rwa [Jobs.strncpy, List.take_take] at hb

theorem report_eq (line : CommandLine) (entry : CArray 256 Char) (pid : ℕ) (status : Status)
    (slot : CArray msgLen Char) :
    ∃ cmdName : CArray 256 Char, Spells nul cmdName.read (line.text.take 255) ∧
      report line entry pid status slot = queueMessage cmdName pid status slot := by
  obtain ⟨cmdName, hcmdName, hspells⟩ := name_spells line entry
  obtain ⟨cmdline, hcmdline, hadd⟩ := Lib.bind_eq_ok hcmdName
  refine ⟨cmdName, hspells, ?_⟩
  rw [report, hcmdline]
  change (jobAddName entry cmdline >>= fun c => queueMessage c pid status slot) = _
  rw [hadd]
  rfl

/-- **A completion message that fits is stored in full.**  If the message for the whole
command line is shorter than its slot, then every copy on the way stays inside of its
arrays, and the slot holds the message and its terminator. -/
theorem completion_message_fits (entry : CArray 256 Char) (slot : CArray msgLen Char)
    (hmsg : completionMessage line.text pid status = some msg) (hfit : msg.length < msgLen) :
    Returns (report line entry pid status slot) fun b => Spells nul b.read msg := by
  obtain ⟨cmdName, hcmdName, heq⟩ := report_eq line entry pid status slot
  obtain ⟨e, -, hmsg'⟩ := message_cases hmsg
  have hline : line.text.take 255 = line.text := by
    apply List.take_of_length_le
    rw [hmsg', List.length_append] at hfit
    unfold msgLen at hfit
    omega
  rw [hline] at hcmdName
  rw [heq]
  exact queueMessage_spells hcmdName hmsg hfit slot

theorem nul_notMem_ls : nul ∉ "ls".toList := by decide

theorem nul_notMem_dashL : nul ∉ "-l".toList := by decide

/-- `ls -l` -/
def lsLong : CommandLine :=
  .single [⟨"ls".toList, nul_notMem_ls⟩, ⟨"-l".toList, nul_notMem_dashL⟩]

theorem completion_message_fits_lsLong :
    Returns (report lsLong .blank 4242 .exited .blank) fun b =>
      Spells nul b.read "ls -l with pid 4242 exited normally\n".toList :=
  completion_message_fits .blank .blank (by decide) (by decide)

/-- A message that does not fit: the handler copies what is behind its array to what is
behind the slot. -/
theorem report_outOfRange (entry : CArray 256 Char) (slot : CArray msgLen Char)
    (hmsg : completionMessage line.text pid status = some msg) (hlong : msgLen ≤ msg.length) :
    report line entry pid status slot = .error .outOfRange := by
  obtain ⟨cmdName, hcmdName, heq⟩ := report_eq line entry pid status slot
  obtain ⟨e, he, rfl⟩ := message_cases hmsg
  have hcut : completionMessage (line.text.take 255) pid status =
      some (line.text.take 255 ++ e) := by
    rw [completionMessage_eq, he]
    rfl
  rw [heq]
  refine queueMessage_outOfRange hcmdName hcut ?_ slot
  -- a name that has been cut fills the array on its own
  have hpos := ending_length_pos he
  rw [List.length_append] at hlong
  rw [List.length_append, List.length_take]
  unfold msgLen at hlong ⊢
  omega

/-- `echo` with a word of 240 characters. -/
def longEcho : CommandLine :=
  .single [⟨"echo".toList, by decide⟩, ⟨List.replicate 240 'a', by decide⟩]

/-- The name of this job fits into its entry, its message does not fit into its slot. -/
theorem long_echo_overruns :
    longEcho.text.length < 256 ∧
      report longEcho .blank 4242 .exited .blank = .error .outOfRange := by
  refine ⟨by decide +kernel, ?_⟩
  exact report_outOfRange .blank .blank rfl (by decide +kernel)

end Report

end Messages
end RuShell
