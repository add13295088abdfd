import Mathlib.Logic.Function.Basic
import Mathlib.Tactic
import RuShell.Lib.Lists
import RuShell.Lib.Run

/-!
# Programs that make system calls

A small model of processes that create pipes and children.  A program is a tree
of system calls; the result of a call selects the rest of the program, and a
`fork` continues in two processes, each with its own copy of the descriptor
table.  The copy loops of processes that move data between a file and a pipe are
single calls (`feed`, `drain`), since only the amount of data matters for who
waits for whom.

## Main definitions

* `Iface` — the names a program uses: pipes, files, roles, bookkeeping actions.
* `Call`, `Prog` — system calls and programs.
* `Prog.Calls` — programs that make only calls of a kind.
* `World`, `step` — processes, pipes, and their steps in any order.
-/

namespace RuShell
namespace Lib
namespace Posix

/-! ### Calls and programs -/

/-- The names a program uses. -/
structure Iface where
  /-- The pipes, by the purpose they are created for. -/
  Tag : Type
  /-- Files and programs. -/
  Name : Type
  /-- What a process is for. -/
  Role : Type
  /-- Actions that touch neither descriptors nor other processes. -/
  Book : Type

/-- What a descriptor refers to. -/
inductive End (I : Iface)
  | read (t : I.Tag)
  | write (t : I.Tag)
  | file (n : I.Name)

instance (I : Iface) [DecidableEq I.Tag] [DecidableEq I.Name] : DecidableEq (End I)
  | .read t, .read t' => decidable_of_iff (t = t') (by simp)
  | .write t, .write t' => decidable_of_iff (t = t') (by simp)
  | .file n, .file n' => decidable_of_iff (n = n') (by simp)
  | .read _, .write _ => isFalse (by simp)
  | .read _, .file _ => isFalse (by simp)
  | .write _, .read _ => isFalse (by simp)
  | .write _, .file _ => isFalse (by simp)
  | .file _, .read _ => isFalse (by simp)
  | .file _, .write _ => isFalse (by simp)

/-- A descriptor table. -/
abbrev Fds (I : Iface) := ℕ → Option (End I)

/-- What the macros read from the status variable of a `waitpid`. -/
inductive Status
  | exited | signaled | stopped
  deriving DecidableEq, Repr

/-- What `fork` returns. -/
inductive Forked
  | child | parent (pid : ℕ) | failed
  deriving DecidableEq, Repr

/-- A system call other than `fork`. -/
inductive Call (I : Iface)
  | pipe (t : I.Tag)
  | openFile (n : I.Name)
  | close (fd : ℕ)
  | dup2 (src dst : ℕ)
  /-- `waitpid` for one child, with or without `WUNTRACED`. -/
  | wait (pid : ℕ) (untraced : Bool)
  /-- `read` of a single byte. -/
  | readByte (fd : ℕ)
  /-- Write `n` bytes, however many calls it takes. -/
  | feed (fd n : ℕ)
  /-- Read until end of file. -/
  | drain (fd : ℕ)
  /-- `execv`; it returns only if it fails. -/
  | exec (n : I.Name)
  | exit (code : ℕ)
  | book (b : I.Book)

variable {I : Iface}

/-- The type of the result of a call. -/
def Call.Ret : Call I → Type
  | .pipe _ => Option (ℕ × ℕ)
  | .openFile _ => Option ℕ
  | .wait _ _ => Status
  | .exit _ => Empty
  | .book _ => ℤ
  | _ => Unit

/-- The calls at which a process can wait or turn into another program. -/
def Call.stops : Call I → Bool
  | .wait _ _ | .readByte _ | .feed _ _ | .drain _ | .exec _ => true
  | _ => false

/-- A program: what it does next depends on the results so far. -/
inductive Prog (I : Iface) (α : Type)
  | pure (a : α)
  | call (c : Call I) (k : c.Ret → Prog I α)
  /-- Both processes go on, the child in the given role. -/
  | fork (r : I.Role) (k : Forked → Prog I α)

namespace Prog

variable {α β : Type}

/-- Sequencing. -/
def bind : Prog I α → (α → Prog I β) → Prog I β
  | .pure a, q => q a
  | .call c k, q => .call c fun x => (k x).bind q
  | .fork r k, q => .fork r fun x => (k x).bind q

instance : Monad (Prog I) where
  pure := .pure
  bind := .bind

@[simp] theorem pure_bind (a : α) (q : α → Prog I β) : (Pure.pure a >>= q : Prog I β) = q a := rfl

theorem bind_assoc {γ : Type} (p : Prog I α) (q : α → Prog I β) (r : β → Prog I γ) :
    (p >>= q) >>= r = p >>= fun a => q a >>= r := by
  induction p with
  | pure a => rfl
  | call c k ih => exact congrArg (Prog.call c) (funext ih)
  | fork f k ih => exact congrArg (Prog.fork f) (funext ih)

/-- The process does not fork, and makes only calls of a kind, whatever they return. -/
def Calls (A : Call I → Prop) : Prog I α → Prop
  | .pure _ => True
  | .call c k => A c ∧ ∀ x, (k x).Calls A
  | .fork _ _ => False

theorem Calls.bind {A : Call I → Prop} {p : Prog I α} {q : α → Prog I β} (hp : p.Calls A)
    (hq : ∀ a, (q a).Calls A) : (p >>= q).Calls A := by
  induction p with
  | pure a => exact hq a
  | call c k ih => exact ⟨hp.1, fun x => ih x (hp.2 x)⟩
  | fork r k ih => exact hp

theorem Calls.mono {A B : Call I → Prop} {p : Prog I α} (hAB : ∀ c, A c → B c)
    (hp : p.Calls A) : p.Calls B := by
  induction p with
  | pure a => trivial
  | call c k ih => exact ⟨hAB c hp.1, fun x => ih x (hp.2 x)⟩
  | fork r k ih => exact hp

end Prog

/-! The programs that make one call. -/

/-- `pipe`: the read and the write end, if it succeeds. -/
def pipe (t : I.Tag) : Prog I (Option (ℕ × ℕ)) := .call (.pipe t) .pure

/-- `open`: the descriptor, if it succeeds. -/
def openFile (n : I.Name) : Prog I (Option ℕ) := .call (.openFile n) .pure

/-- `close` -/
def close (fd : ℕ) : Prog I Unit := .call (.close fd) .pure

/-- `dup2` -/
def dup2 (src dst : ℕ) : Prog I Unit := .call (.dup2 src dst) .pure

/-- `waitpid`, which may also return when the child is stopped. -/
def wait (pid : ℕ) (untraced : Bool) : Prog I Status := .call (.wait pid untraced) .pure

/-- `read` of one byte. -/
def readByte (fd : ℕ) : Prog I Unit := .call (.readByte fd) .pure

/-- Write `n` bytes. -/
def feed (fd n : ℕ) : Prog I Unit := .call (.feed fd n) .pure

/-- Read until the end of the file. -/
def drain (fd : ℕ) : Prog I Unit := .call (.drain fd) .pure

/-- `exec`, which returns only if it fails. -/
def exec (n : I.Name) : Prog I Unit := .call (.exec n) .pure

/-- `exit`, which does not return. -/
def exit {α : Type} (code : ℕ) : Prog I α := .call (.exit code) Empty.elim

/-- A call that touches no descriptor. -/
def book (b : I.Book) : Prog I ℤ := .call (.book b) .pure

/-- `fork`, for a child with this role. -/
def fork (r : I.Role) : Prog I Forked := .fork r .pure

/-- Close descriptors, in order. -/
def closeFds : List ℕ → Prog I Unit
  | [] => pure ()
  | fd :: fds => do
    close fd
    closeFds fds

/-! ### Worlds -/

/-- What a process is doing. -/
inductive Code (I : Iface) (α : Type)
  | running (p : Prog I α)
  /-- It has become another program. -/
  | execd (n : I.Name)
  | dead

/-- A process; its pid is its place in the world. -/
structure Process (I : Iface) (α : Type) where
  role : I.Role
  fds : Fds I
  code : Code I α

/-- All processes, and how many bytes each pipe holds. -/
structure World (I : Iface) (α : Type) where
  procs : List (Process I α)
  fill : I.Tag → ℕ

/-- How many bytes a pipe can hold, and how many descriptors a process can have
besides the three standard ones. -/
structure Limits where
  cap : ℕ
  extra : ℕ

/-- The size of a descriptor table. -/
def Limits.openMax (lim : Limits) : ℕ := lim.extra + 3

/-- How a call turns out. -/
inductive Outcome
  | ok
  /-- The file cannot be opened, or the program not executed. -/
  | refused
  /-- The system has run out of something. -/
  | fault
  | status (s : Status)
  /-- A signal handler has run; the status variable is left as it was. -/
  | interrupted (s : Status)
  | value (z : ℤ)
  deriving DecidableEq, Repr

/-- What a process can do after it has become another program. -/
inductive Ext (I : Iface)
  | exit
  | close (fd : ℕ)
  | consume (fd : ℕ)
  | produce (fd : ℕ)

/-- A step of a process. -/
inductive Act (I : Iface)
  | call (pid : ℕ) (o : Outcome)
  | ext (pid : ℕ) (x : Ext I)

/-- Who makes the step. -/
def Act.pid : Act I → ℕ
  | .call pid _ => pid
  | .ext pid _ => pid

section Machine

variable [DecidableEq I.Tag] [DecidableEq I.Name] {α : Type} (lim : Limits)

/-- The lowest descriptor that is not in use. -/
def lowest (f : Fds I) : Option ℕ := (List.range lim.openMax).find? fun fd => (f fd).isNone

/-- The table after `dup2(src, dst)`, for a `dst` in range. -/
def dup (f : Fds I) (src dst : ℕ) : Fds I :=
  match f src with
  | none => f
  | some e => Function.update f dst (some e)

/-- The calls that only touch the caller's own table. -/
def localStep (f : Fds I) : (c : Call I) → Outcome → Option (c.Ret × Fds I)
  | .pipe t, .ok =>
    match lowest lim f with
    | none => none
    | some a =>
      let f := Function.update f a (some (.read t))
      match lowest lim f with
      | none => none
      | some b => some (some (a, b), Function.update f b (some (.write t)))
  | .pipe _, .fault => some (none, f)
  | .openFile n, .ok =>
    match lowest lim f with
    | none => none
    | some a => some (some a, Function.update f a (some (.file n)))
  | .openFile _, .refused => some (none, f)
  | .close fd, .ok => some ((), Function.update f fd none)
  | .dup2 src dst, .ok => some ((), if dst < lim.openMax then dup f src dst else f)
  | .exec _, .refused => some ((), f)
  | .book _, .value z => some (z, f)
  | _, _ => none

/-- Does some process hold the given end? -/
def World.held (w : World I α) (e : End I) : Bool :=
  w.procs.any fun p => (List.range lim.openMax).any fun fd => p.fds fd = some e

/-- Replace the process `pid`. -/
def World.set (w : World I α) (pid : ℕ) (p : Process I α) : World I α :=
  { w with procs := w.procs.set pid p }

/-- Change the number of bytes in a pipe. -/
def World.setFill (w : World I α) (t : I.Tag) (n : ℕ) : World I α :=
  { w with fill := Function.update w.fill t n }

/-- Has the process terminated? -/
def World.isDead (w : World I α) (pid : ℕ) : Bool :=
  match w.procs[pid]? with
  | some ⟨_, _, .dead⟩ => true
  | _ => false

/-- A dead process holds nothing. -/
def Process.kill (p : Process I α) : Process I α := { p with fds := fun _ => none, code := .dead }

/-- The process `pid`, running `call c k` with the table of `p`, makes the call. -/
def World.callStep (w : World I α) (pid : ℕ) (p : Process I α) :
    (c : Call I) → (c.Ret → Prog I α) → Outcome → Option (World I α)
  | .wait q untraced, k, .status s =>
    if w.isDead q && (s = .exited || s = .signaled) || untraced && s = .stopped then
      some (w.set pid { p with code := .running (k s) })
    else none
  | .wait _ _, k, .interrupted s => some (w.set pid { p with code := .running (k s) })
  | .readByte fd, k, .ok =>
    let next := w.set pid { p with code := .running (k ()) }
    match p.fds fd with
    | some (.read t) =>
      if 0 < w.fill t then some (next.setFill t (w.fill t - 1))
      else if w.held lim (.write t) then none
      else some next
    | _ => some next
  | .feed _ 0, k, .ok => some (w.set pid { p with code := .running (k ()) })
  | .feed fd (n + 1), k, .ok =>
    match p.fds fd with
    | some (.write t) =>
      if w.held lim (.read t) then
        if w.fill t < lim.cap then
          some ((w.set pid { p with code := .running (.call (.feed fd n) k) }).setFill t
            (w.fill t + 1))
        else none
      -- `SIGPIPE`
      else some (w.set pid p.kill)
    | _ => some (w.set pid { p with code := .running (k ()) })
  | .drain fd, k, .ok =>
    match p.fds fd with
    | some (.read t) =>
      if 0 < w.fill t then some (w.setFill t 0)
      else if w.held lim (.write t) then none
      else some (w.set pid { p with code := .running (k ()) })
    | _ => some (w.set pid { p with code := .running (k ()) })
  | .exec n, _, .ok => some (w.set pid { p with code := .execd n })
  | .exit _, _, .ok => some (w.set pid p.kill)
  | c, k, o =>
    match localStep lim p.fds c o with
    | none => none
    | some (x, f) => some (w.set pid { p with fds := f, code := .running (k x) })

/-- What an executed program does. -/
def World.extStep (w : World I α) (pid : ℕ) (p : Process I α) : Ext I → Option (World I α)
  | .exit => some (w.set pid p.kill)
  | .close fd => some (w.set pid { p with fds := Function.update p.fds fd none })
  | .consume fd =>
    match p.fds fd with
    | some (.read t) => if 0 < w.fill t then some (w.setFill t (w.fill t - 1)) else none
    | _ => none
  | .produce fd =>
    match p.fds fd with
    | some (.write t) => if w.fill t < lim.cap then some (w.setFill t (w.fill t + 1)) else none
    | _ => none

/-- The step function; `none` if the process cannot make this step now. -/
def step (w : World I α) : Act I → Option (World I α)
  | .call pid o =>
    match w.procs[pid]? with
    | none => none
    | some p =>
      match p.code, o with
      | .running (.call c k), o => w.callStep lim pid p c k o
      | .running (.fork r k), .ok =>
        some { w with
          procs := w.procs.set pid { p with code := .running (k (.parent w.procs.length)) } ++
            [{ role := r, fds := p.fds, code := .running (k .child) }] }
      | .running (.fork _ k), .fault =>
        some (w.set pid { p with code := .running (k .failed) })
      | _, _ => none
  | .ext pid x =>
    match w.procs[pid]? with
    | none => none
    | some p =>
      match p.code with
      | .execd _ => w.extStep lim pid p x
      | _ => none

end Machine

end Posix
end Lib
end RuShell
