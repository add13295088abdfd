import RuShell.Lib.Lines
import RuShell.Lib.Reading

/-!
# Lines from a buffered stream

`fgets` reads bytes from a stream up to a newline, up to a given number of bytes
or up to the end.  When a read of the stream fails it returns `NULL`, and the
bytes it has taken from the stream by then are lost.

## Main definitions

* `File` — a stream: the bytes in its buffer and the descriptor behind it.
* `File.getc` — the next byte.
* `Fgets`, `File.fgets sep size f` — a call of `fgets` with room for `size` bytes,
  the terminator included.
* `File.struck f` — the offsets at which reads of the stream are interrupted.

## Main results

* `File.getc_spec`, `File.fgets_spec` — what each result means for what is unread:
  a line is the first line of it, or as much of that as there is room for.
* `File.fgets_struck` — where a call is interrupted.
* `File.fgets_taken_length` — no call takes more than there is room for.
* `File.fgets_of_nil`, `File.fgets_of_ne_nil` — a stream without interruptions.
-/

namespace RuShell
namespace Lib

/-- An open stream. -/
structure File (α : Type*) where
  /-- The bytes that have been read ahead. -/
  buffered : List α
  fd : Reader α

/-- What `getc` returns; the last two are errors. -/
inductive Getc (α : Type*)
  | char (a : α)
  | eof
  | eintr
  | fail

/-- What `fgets` returns.  Anything but a line is `NULL`. -/
inductive Fgets (α : Type*)
  | line (l : List α)
  | eof
  /-- A read was interrupted after `lost` had been taken from the stream. -/
  | eintr (lost : List α)
  | fail (lost : List α)

/-- The bytes that a call has taken from the stream. -/
def Fgets.taken {α : Type*} : Fgets α → List α
  | .line l => l
  | .eof => []
  | .eintr lost => lost
  | .fail lost => lost

namespace File

variable {α : Type*} {f g : File α}

/-- What has not been taken from the stream. -/
def unread (f : File α) : List α := f.buffered ++ f.fd.rest

/-- What a loop that reads to the end uses up. -/
def left (f : File α) : ℕ := f.buffered.length + f.fd.left

theorem left_mk_nil (fd : Reader α) : (⟨[], fd⟩ : File α).left = fd.left := Nat.zero_add _

/-- No read fails, interruptions apart. -/
def Calm (f : File α) : Prop := f.fd.Calm

/-- No read fails or is interrupted. -/
def Smooth (f : File α) : Prop := f.fd.Smooth

/-- What a call leaves behind is as well-behaved as what it found. -/
structure Keeps (f g : File α) : Prop where
  calm : f.Calm → g.Calm
  smooth : f.Smooth → g.Smooth

theorem Keeps.refl (f : File α) : Keeps f f := ⟨id, id⟩

theorem Keeps.trans {f g h : File α} (hfg : Keeps f g) (hgh : Keeps g h) : Keeps f h :=
  ⟨hgh.calm ∘ hfg.calm, hgh.smooth ∘ hfg.smooth⟩

theorem keeps_of_read {n : ℕ} {r : ReadResult α} {fd : Reader α}
    (h : f.fd.read n = (r, fd)) (buffered : List α) : Keeps f ⟨buffered, fd⟩ :=
  ⟨fun hf => (Reader.Calm.read hf h).2, fun hf => (Reader.Smooth.read hf h).2⟩

/-! ### One byte -/

/-- `BUFSIZ` -/
def bufsiz : ℕ := 4096

/-- The next byte, with a new buffer if the old one is used up. -/
def getc (f : File α) : Getc α × File α :=
  match f.buffered with
  | a :: buffered => (.char a, { f with buffered })
  | [] =>
    match f.fd.read bufsiz with
    | (.data (a :: buffered), fd) => (.char a, ⟨buffered, fd⟩)
    | (.data [], fd) => (.eof, ⟨[], fd⟩)
    | (.eintr, fd) => (.eintr, ⟨[], fd⟩)
    | (.fail, fd) => (.fail, ⟨[], fd⟩)

/-- What the result of `getc` says about the stream before and after it. -/
def Getc.Says (f : File α) : Getc α × File α → Prop
  | (.char a, g) => f.unread = a :: g.unread ∧ g.left < f.left ∧ Keeps f g
  | (.eof, g) => f.unread = [] ∧ g.unread = [] ∧ g.left ≤ f.left ∧ Keeps f g
  | (.eintr, g) => g.unread = f.unread ∧ g.left < f.left ∧ Keeps f g ∧ ¬ f.Smooth
  | (.fail, g) => g.left ≤ f.left ∧ ¬ f.Calm

theorem getc_spec (f : File α) : Getc.Says f f.getc := by
  unfold getc
  cases hbuf : f.buffered with
  | cons a buffered =>
    refine ⟨?_, ?_, ⟨id, id⟩⟩
    · rw [unread, hbuf]
      rfl
    · show buffered.length + f.fd.left < f.left
      rw [left, hbuf, List.length_cons]
      omega
  | nil =>
    have hunread : f.unread = f.fd.rest := by rw [unread, hbuf, List.nil_append]
    have hleft : f.left = f.fd.left := by rw [left, hbuf, List.length_nil, Nat.zero_add]
    match hread : f.fd.read bufsiz with
    | (.data (a :: buffered), fd) =>
      refine ⟨?_, ?_, keeps_of_read hread _⟩
      · rw [hunread, (Reader.read_data hread).1]
        rfl
      · have := Reader.read_data_left hread
        rw [List.length_cons] at this
        rw [hleft]
        show buffered.length + fd.left < f.fd.left
        omega
    | (.data [], fd) =>
      have hend := Reader.read_end (by decide) hread
      have hrest := (Reader.read_data hread).1
      rw [hend] at hrest
      refine ⟨hunread.trans hend, (List.append_eq_nil_iff.mp hrest.symm).2, ?_,
        keeps_of_read hread _⟩
      rw [hleft, left_mk_nil]
      exact Reader.read_left_le hread
    | (.eintr, fd) =>
      refine ⟨hunread.symm ▸ (Reader.read_eintr hread).1, ?_, keeps_of_read hread _, ?_⟩
      · rw [hleft, left_mk_nil]
        exact Reader.read_left hread (.inl rfl)
      · exact fun hf => (Reader.Smooth.read hf hread).1 rfl
    | (.fail, fd) =>
      refine ⟨?_, fun hf => (Reader.Calm.read hf hread).1 rfl⟩
      rw [hleft, left_mk_nil]
      exact Reader.read_left_le hread

/-! ### Where the interruptions strike -/

/-- The offsets at which calls of `read` are interrupted, of a stream of which `off`
bytes are buffered and `n` are not; no offset after the end has been met. -/
def strikes (off n : ℕ) : List Mood → List ℕ
  | .eintr :: moods => off :: strikes off n moods
  | .upTo k :: moods =>
    if n = 0 then []
    else strikes (off + min (min (k + 1) bufsiz) n) (n - min (min (k + 1) bufsiz) n) moods
  | _ => []

/-- The offsets are counted from what is unread. -/
def struck (f : File α) : List ℕ := strikes f.buffered.length f.fd.rest.length f.fd.moods

theorem strikes_add (off n c : ℕ) (moods : List Mood) :
    strikes (off + c) n moods = (strikes off n moods).map (· + c) := by
  induction moods generalizing off n with
  | nil => rfl
  | cons mood moods ih =>
    cases mood with
    | eintr => simp only [strikes, List.map_cons, ih]
    | fail => rfl
    | upTo k =>
      unfold strikes
      split
      · rfl
      · rw [Nat.add_right_comm, ih]

/-- What the result of `getc` says about the interruptions. -/
def Getc.Struck (f : File α) : Getc α × File α → Prop
  | (.char _, g) => f.struck = g.struck.map (· + 1)
  | (.eof, _) => f.struck = []
  | (.eintr, g) => f.struck = 0 :: g.struck
  | (.fail, _) => True

theorem getc_struck (f : File α) : Getc.Struck f f.getc := by
  obtain ⟨buffered, content, pos, moods⟩ := f
  cases buffered with
  | cons a buffered => exact strikes_add buffered.length _ 1 _
  | nil =>
    unfold getc
    cases moods with
    | nil =>
      simp only [Reader.read, Reader.advance]
      generalize List.take bufsiz _ = piece
      cases piece <;> rfl
    | cons mood moods =>
      cases mood with
      | eintr => rfl
      | fail => trivial
      | upTo k =>
        simp only [Reader.read, Reader.advance, Reader.rest]
        have hlen := List.length_take (i := min (k + 1) bufsiz) (l := content.drop pos)
        generalize List.take (min (k + 1) bufsiz) (content.drop pos) = piece at hlen ⊢
        have hm : 0 < min (k + 1) bufsiz := Nat.lt_min.mpr ⟨Nat.succ_pos k, by decide⟩
        cases piece with
        | nil =>
          rw [List.length_nil] at hlen
          exact if_pos (by show (content.drop pos).length = 0; omega)
        | cons a buffered =>
          rw [List.length_cons] at hlen
          refine (if_neg (by show (content.drop pos).length ≠ 0; omega)).trans ?_
          have hrest : (content.drop (pos + (buffered.length + 1))).length =
              (content.drop pos).length - (buffered.length + 1) := by
            simp only [List.length_drop]
            omega
          show strikes (0 + min _ (content.drop pos).length)
              ((content.drop pos).length - min _ (content.drop pos).length) moods =
            (strikes buffered.length (content.drop (pos + (buffered.length + 1))).length _).map _
          rw [hrest, ← strikes_add, ← hlen, Nat.zero_add]

/-! ### One line -/

variable [DecidableEq α] (sep : α)

/-- The loop of `fgets` with room for `n` more bytes, after `buf`. -/
def fgetsLoop : ℕ → File α → List α → Fgets α × File α
  | 0, f, buf => (.line buf, f)
  | n + 1, f, buf =>
    match f.getc with
    | (.char a, g) => if a = sep then (.line (buf ++ [a]), g) else fgetsLoop n g (buf ++ [a])
    | (.eof, g) => (if buf = [] then .eof else .line buf, g)
    | (.eintr, g) => (.eintr buf, g)
    | (.fail, g) => (.fail buf, g)

/-- `fgets` into a buffer of `size` bytes, of which one is for the terminator. -/
def fgets (size : ℕ) (f : File α) : Fgets α × File α := fgetsLoop sep (size - 1) f []

theorem fgetsLoop_taken_length (n : ℕ) (f : File α) (buf : List α) :
    (fgetsLoop sep n f buf).1.taken.length ≤ buf.length + n := by
  induction n generalizing f buf with
  | zero => exact Nat.le_refl _
  | succ n ih =>
    unfold fgetsLoop
    match f.getc with
    | (.char a, g) =>
      by_cases ha : a = sep
      · simp only [ha, if_true, Fgets.taken, List.length_append, List.length_singleton]
        omega
      · have hrest := ih g (buf ++ [a])
        rw [List.length_append, List.length_singleton] at hrest
        simp only [ha, if_false]
        omega
    | (.eof, g) =>
      by_cases hbuf : buf = []
      · simp [hbuf, Fgets.taken]
      · simp [hbuf, Fgets.taken]
    | (.eintr, g) => exact Nat.le_add_right _ _
    | (.fail, g) => exact Nat.le_add_right _ _

/-- A call takes no more than there is room for beside the terminator. -/
theorem fgets_taken_length (size : ℕ) (f : File α) :
    (fgets sep size f).1.taken.length ≤ size - 1 := by
  have h := fgetsLoop_taken_length sep (size - 1) f []
  rwa [List.length_nil, Nat.zero_add] at h

/-- What the result says, `buf` being what had been taken before. -/
def Says (n : ℕ) (f : File α) (buf : List α) : Fgets α × File α → Prop
  | (.line l, g) =>
    l = buf ++ (firstLine sep f.unread).take n ∧
      f.unread = (firstLine sep f.unread).take n ++ g.unread ∧ Keeps f g ∧ g.left ≤ f.left ∧
      (0 < n → buf = [] → l ≠ [] ∧ g.left < f.left)
  | (.eof, g) => buf = [] ∧ f.unread = [] ∧ g.unread = [] ∧ Keeps f g ∧ g.left ≤ f.left
  | (.eintr lost, g) =>
    (∃ p, lost = buf ++ p ∧ f.unread = p ++ g.unread) ∧ Keeps f g ∧ g.left < f.left ∧ ¬ f.Smooth
  | (.fail _, g) => g.left ≤ f.left ∧ ¬ f.Calm

variable {r : Fgets α × File α} {size : ℕ}

/-- What a byte more adds to what the rest of the loop says. -/
theorem Says.cons {n : ℕ} {buf : List α} {a : α} (ha : a ≠ sep)
    (hunread : f.unread = a :: g.unread) (hleft : g.left < f.left) (hkeeps : Keeps f g)
    (h : Says sep n g (buf ++ [a]) r) : Says sep (n + 1) f buf r := by
  have hfirst : firstLine sep f.unread = a :: firstLine sep g.unread := by
    rw [hunread, firstLine_cons ha]
  match r, h with
  | (.line l, g'), ⟨hl, hrest, hk, hle, _⟩ =>
    refine ⟨?_, ?_, hkeeps.trans hk, by omega, fun _ _ => ⟨?_, by omega⟩⟩
    · rw [hl, hfirst, List.take_succ_cons, List.append_assoc]
      rfl
    · rw [hfirst, List.take_succ_cons, hunread, List.cons_append, ← hrest]
    · rw [hl]
      simp
  | (.eof, g'), ⟨hbuf, _⟩ => simp at hbuf
  | (.eintr lost, g'), ⟨⟨p, hp, hrest⟩, hk, hlt, hsm⟩ =>
    refine ⟨⟨a :: p, ?_, ?_⟩, hkeeps.trans hk, by omega, fun hf => hsm (hkeeps.smooth hf)⟩
    · rw [hp, List.append_assoc]
      rfl
    · rw [hunread, hrest, List.cons_append]
  | (.fail _, g'), ⟨hle, hc⟩ => exact ⟨by omega, fun hf => hc (hkeeps.calm hf)⟩

theorem fgetsLoop_spec (n : ℕ) (f : File α) (buf : List α) :
    Says sep n f buf (fgetsLoop sep n f buf) := by
  induction n generalizing f buf with
  | zero => exact ⟨by simp, by simp, Keeps.refl f, Nat.le_refl _, nofun⟩
  | succ n ih =>
    have hspec := getc_spec f
    unfold fgetsLoop
    match hget : f.getc with
    | (.char a, g) =>
      rw [hget] at hspec
      obtain ⟨hunread, hleft, hkeeps⟩ := hspec
      by_cases ha : a = sep
      · -- the line ends here
        simp only [ha, if_true]
        have hfirst : firstLine sep f.unread = [sep] := by
          rw [hunread, ha, firstLine_sep_cons]
        refine ⟨?_, ?_, hkeeps, Nat.le_of_lt hleft, fun _ _ => ⟨by simp, hleft⟩⟩
        · rw [hfirst]
          simp
        · rw [hfirst, hunread, ha]
          simp
      · simp only [ha, if_false]
        exact (ih g (buf ++ [a])).cons sep ha hunread hleft hkeeps
    | (.eof, g) =>
      rw [hget] at hspec
      obtain ⟨hf, hg, hle, hk⟩ := hspec
      by_cases hbuf : buf = []
      · simp only [hbuf, if_true]
        exact ⟨rfl, hf, hg, hk, hle⟩
      · simp only [hbuf, if_false]
        refine ⟨?_, ?_, hk, hle, fun _ h => absurd h hbuf⟩
        · rw [hf]
          simp
        · rw [hf, hg]
          rfl
    | (.eintr, g) =>
      rw [hget] at hspec
      obtain ⟨hun, hlt, hk, hsm⟩ := hspec
      exact ⟨⟨[], by simp, hun.symm⟩, hk, hlt, hsm⟩
    | (.fail, g) =>
      rw [hget] at hspec
      exact hspec

/-- **A call of `fgets`.** -/
theorem fgets_spec (size : ℕ) (f : File α) : Says sep (size - 1) f [] (fgets sep size f) :=
  fgetsLoop_spec sep (size - 1) f []

variable {sep}

/-- What a call that has returned says about the stream. -/
theorem of_fgets (h : fgets sep size f = r) :
    Says sep (size - 1) f [] r :=
  h ▸ fgets_spec sep size f

/-- Without interruptions the end of the stream is the only reason not to return
a line. -/
theorem fgets_of_nil {size : ℕ} (hsize : 1 < size) (hf : f.Smooth) (hnil : f.unread = []) :
    ∃ g, fgets sep size f = (.eof, g) := by
  match hget : fgets sep size f with
  | (.line l, g) =>
    have hspec := of_fgets hget
    have hl := hspec.1
    rw [hnil, firstLine_nil, List.take_nil] at hl
    exact absurd hl (hspec.2.2.2.2 (Nat.sub_pos_of_lt hsize) rfl).1
  | (.eof, g) => exact ⟨g, rfl⟩
  | (.eintr lost, g) =>
    have hspec := of_fgets hget
    exact absurd hf hspec.2.2.2
  | (.fail lost, g) =>
    have hspec := of_fgets hget
    exact absurd (Reader.Smooth.calm hf) hspec.2

/-- The next line of a stream, or as much of it as there is room for. -/
theorem fgets_of_ne_nil (size : ℕ) (hf : f.Smooth) (hne : f.unread ≠ []) :
    ∃ g, fgets sep size f = (.line ((firstLine sep f.unread).take (size - 1)), g) ∧ g.Smooth ∧
      f.unread = (firstLine sep f.unread).take (size - 1) ++ g.unread := by
  match hget : fgets sep size f with
  | (.line l, g) =>
    have hspec := of_fgets hget
    obtain ⟨hl, hunread, hkeeps, -⟩ := hspec
    rw [List.nil_append] at hl
    exact ⟨g, by rw [hl], hkeeps.smooth hf, hunread⟩
  | (.eof, g) =>
    have hspec := of_fgets hget
    exact absurd hspec.2.1 hne
  | (.eintr lost, g) =>
    have hspec := of_fgets hget
    exact absurd hf hspec.2.2.2
  | (.fail lost, g) =>
    have hspec := of_fgets hget
    exact absurd (Reader.Smooth.calm hf) hspec.2

variable (sep) in
/-- What the result of `fgets` says about the interruptions, `buf` being what had
been taken before. -/
def Struck (n : ℕ) (f : File α) (buf : List α) : Fgets α × File α → Prop
  | (.line l, g) => ∃ p, l = buf ++ p ∧
      (f.struck = g.struck.map (· + p.length) ∧ (sep ∈ p ∨ p.length = n) ∨
        f.struck = [] ∧ g.unread = [])
  | (.eintr lost, g) => ∃ p, lost = buf ++ p ∧ sep ∉ p ∧ p.length < n ∧
      f.struck = p.length :: g.struck.map (· + p.length)
  | _ => True

omit [DecidableEq α] in
/-- What a byte more adds. -/
theorem Struck.cons {n : ℕ} {buf : List α} {a : α} (ha : a ≠ sep)
    (hstruck : f.struck = g.struck.map (· + 1)) (h : Struck sep n g (buf ++ [a]) r) :
    Struck sep (n + 1) f buf r := by
  obtain ⟨r, g'⟩ := r
  have hshift : ∀ p : List α, (g'.struck.map (· + p.length)).map (· + 1) =
      g'.struck.map (· + (a :: p).length) := fun p => List.map_map
  cases r with
  | line l =>
    obtain ⟨p, rfl, hcase⟩ := h
    refine ⟨a :: p, List.append_assoc _ _ _, ?_⟩
    rcases hcase with ⟨hg, hp⟩ | ⟨hg, hend⟩
    · rw [hstruck, hg, hshift]
      exact .inl ⟨rfl, hp.imp (List.mem_cons_of_mem _) (congrArg (· + 1))⟩
    · rw [hstruck, hg]
      exact .inr ⟨rfl, hend⟩
  | eintr lost =>
    obtain ⟨p, rfl, hp, hlt, hg⟩ := h
    refine ⟨a :: p, List.append_assoc _ _ _, ?_, Nat.succ_lt_succ hlt, ?_⟩
    · exact List.not_mem_cons_of_ne_of_not_mem ha.symm hp
    · rw [hstruck, hg, List.map_cons, hshift]
      rfl
  | eof | fail lost => trivial

theorem fgetsLoop_struck (n : ℕ) (f : File α) (buf : List α) :
    Struck sep n f buf (fgetsLoop sep n f buf) := by
  induction n generalizing f buf with
  | zero => exact ⟨[], (List.append_nil _).symm, .inl ⟨(List.map_id _).symm, .inr rfl⟩⟩
  | succ n ih =>
    have hspec := getc_spec f
    have hstruck := getc_struck f
    unfold fgetsLoop
    match hget : f.getc with
    | (.char a, g) =>
      rw [hget] at hstruck
      by_cases ha : a = sep
      · simp only [ha, if_true]
        exact ⟨[sep], rfl, .inl ⟨hstruck, .inl List.mem_cons_self⟩⟩
      · simp only [ha, if_false]
        exact (ih g (buf ++ [a])).cons ha hstruck
    | (.eof, g) =>
      rw [hget] at hstruck hspec
      by_cases hbuf : buf = []
      · simp only [hbuf, if_true]
        trivial
      · simp only [hbuf, if_false]
        exact ⟨[], (List.append_nil _).symm, .inr ⟨hstruck, hspec.2.1⟩⟩
    | (.eintr, g) =>
      rw [hget] at hstruck
      exact ⟨[], (List.append_nil _).symm, List.not_mem_nil, Nat.succ_pos n,
        hstruck.trans (congrArg _ (List.map_id _).symm)⟩
    | (.fail, g) => trivial

/-- **Where a call of `fgets` is interrupted.** -/
theorem fgets_struck (h : fgets sep size f = r) :
    Struck sep (size - 1) f [] r :=
  h ▸ fgetsLoop_struck (size - 1) f []

/-- An interrupted call has taken a part of a line. -/
theorem fgets_eintr {lost : List α} (h : fgets sep size f = (.eintr lost, g)) :
    sep ∉ lost ∧ lost.length < size - 1 ∧ f.unread = lost ++ g.unread ∧
      f.struck = lost.length :: g.struck.map (· + lost.length) ∧ Keeps f g := by
  have hspec := of_fgets h
  have hstruck := fgets_struck h
  obtain ⟨⟨p, hp, hunread⟩, hkeeps, -⟩ := hspec
  obtain ⟨p', hp', hsep, hlt, hf⟩ := hstruck
  obtain rfl : lost = p := hp
  obtain rfl : lost = p' := hp'
  exact ⟨hsep, hlt, hunread, hf, hkeeps⟩

end File
end Lib
end RuShell
