import Mathlib.Data.List.Basic
import Mathlib.Tactic.Cases

/-!
# Reading from a descriptor

One call of `read` may return fewer bytes than were asked for, may be
interrupted by a signal, or may fail.  A reader is an open descriptor together
with how its next calls will go; once that list is used up every call returns
all the bytes it can.  A statement for every list is one for every behaviour of
`read` in which the interruptions end at some time.

## Main definitions

* `Mood` — how one call goes.
* `Reader` — the contents behind a descriptor, the offset and the moods.
* `Reader.read f n` — one call for at most `n` bytes; no bytes mean the end.
* `Reader.Calm f` — no call fails, interruptions apart.
* `Reader.Smooth f` — no call fails or is interrupted.

## Main results

* `Reader.read_data`, `Reader.read_eintr`, `Reader.read_end` — what each result
  says about the bytes that are left.
* `Reader.read_left` — a loop that goes on until the end is reached ends.
-/

namespace RuShell
namespace Lib

/-- How one call of `read` goes. -/
inductive Mood
  /-- Interrupted by a signal before any byte is transferred. -/
  | eintr
  /-- Another error. -/
  | fail
  /-- At most `k + 1` bytes are transferred. -/
  | upTo (k : ℕ)
  deriving DecidableEq, Repr

/-- What one call of `read` returns. -/
inductive ReadResult (α : Type*)
  | eintr
  | fail
  | data (piece : List α)

/-- An open descriptor. -/
structure Reader (α : Type*) where
  /-- The bytes behind it. -/
  content : List α
  /-- The file offset. -/
  pos : ℕ
  /-- How the next calls will go. -/
  moods : List Mood

namespace Reader

variable {α : Type*} {f g : Reader α} {n : ℕ} {p : List α} {r : ReadResult α}

/-- The bytes after the offset. -/
def rest (f : Reader α) : List α := f.content.drop f.pos

/-- The transfer of at most `n` bytes. -/
def advance (f : Reader α) (n : ℕ) (moods : List Mood) : ReadResult α × Reader α :=
  (.data (f.rest.take n), { f with pos := f.pos + (f.rest.take n).length, moods })

/-- One call of `read` for at most `n` bytes. -/
def read (f : Reader α) (n : ℕ) : ReadResult α × Reader α :=
  match f.moods with
  | [] => f.advance n []
  | .eintr :: moods => (.eintr, { f with moods })
  | .fail :: moods => (.fail, { f with moods })
  | .upTo k :: moods => f.advance (min (k + 1) n) moods

/-- No call fails, interruptions apart. -/
def Calm (f : Reader α) : Prop := Mood.fail ∉ f.moods

/-- What a loop that reads to the end uses up. -/
def left (f : Reader α) : ℕ := f.rest.length + f.moods.length

/-- Every call that transfers bytes is one `advance`. -/
theorem read_eq_advance (h : f.read n = (.data p, g)) :
    ∃ m moods, f.advance m moods = (.data p, g) ∧ m ≤ n ∧ (0 < n → 0 < m) ∧
      moods.length ≤ f.moods.length ∧ (f.Calm → Mood.fail ∉ moods) := by
  unfold read at h
  unfold Calm
  cases hf : f.moods with
  | nil =>
    rw [hf] at h
    exact ⟨n, [], h, Nat.le_refl _, id, Nat.le_refl _, id⟩
  | cons mood moods =>
    rw [hf] at h
    cases mood with
    | eintr | fail => cases h
    | upTo k =>
      refine ⟨min (k + 1) n, moods, h, Nat.min_le_right _ _, fun hn => ?_, ?_, fun hc hm => ?_⟩
      · exact Nat.lt_min.mpr ⟨Nat.succ_pos k, hn⟩
      · exact Nat.le_succ _
      · exact hc (List.mem_cons_of_mem _ hm)

theorem advance_data {moods : List Mood} (h : f.advance n moods = (.data p, g)) :
    p = f.rest.take n ∧ g.rest = f.rest.drop n ∧ g.content = f.content ∧ g.moods = moods := by
  obtain ⟨hp, hg⟩ := Prod.mk.inj h
  subst hg
  refine ⟨(ReadResult.data.inj hp).symm, ?_, rfl, rfl⟩
  show f.content.drop (f.pos + (f.rest.take n).length) = (f.content.drop f.pos).drop n
  rw [List.drop_drop, List.length_take]
  by_cases hn : n ≤ f.rest.length
  · rw [Nat.min_eq_left hn]
  · -- both offsets are past the end
    have hlen : f.rest.length = f.content.length - f.pos := List.length_drop
    rw [Nat.min_eq_right (by omega), List.drop_eq_nil_of_le (by omega),
      List.drop_eq_nil_of_le (by omega)]

/-- The bytes a call returns are the next ones. -/
theorem read_data (h : f.read n = (.data p, g)) :
    f.rest = p ++ g.rest ∧ p.length ≤ n ∧ g.content = f.content := by
  obtain ⟨m, moods, hadv, hm, -⟩ := read_eq_advance h
  obtain ⟨rfl, hrest, hcontent, -⟩ := advance_data hadv
  refine ⟨?_, ?_, hcontent⟩
  · rw [hrest, List.take_append_drop]
  · exact Nat.le_trans (List.length_take_le _ _) hm

/-- No bytes are returned only at the end. -/
theorem read_end (hn : 0 < n) (h : f.read n = (.data [], g)) : f.rest = [] := by
  obtain ⟨m, moods, hadv, -, hm, -⟩ := read_eq_advance h
  obtain ⟨hp, -⟩ := advance_data hadv
  rcases List.take_eq_nil_iff.mp hp.symm with h0 | hnil
  · exact absurd h0 (Nat.pos_iff_ne_zero.mp (hm hn))
  · exact hnil

/-- An interrupted call changes nothing. -/
theorem read_eintr (h : f.read n = (.eintr, g)) :
    g.rest = f.rest ∧ g.content = f.content ∧ g.moods.length < f.moods.length := by
  unfold read at h
  cases hf : f.moods with
  | nil =>
    rw [hf] at h
    cases h
  | cons mood moods =>
    rw [hf] at h
    cases mood with
    | eintr =>
      obtain ⟨-, hg⟩ := Prod.mk.inj h
      subst hg
      exact ⟨rfl, rfl, Nat.lt_succ_self _⟩
    | fail | upTo k => cases h

/-- The bytes a call returns are used up. -/
theorem read_data_left (h : f.read n = (.data p, g)) : p.length + g.left ≤ f.left := by
  obtain ⟨m, moods, hadv, -, -, hlen, -⟩ := read_eq_advance h
  obtain ⟨-, -, -, hmoods⟩ := advance_data hadv
  unfold left
  rw [(read_data h).1, hmoods, List.length_append]
  omega

/-- No call gives anything back. -/
theorem read_left_le (h : f.read n = (r, g)) : g.left ≤ f.left := by
  cases r with
  | eintr =>
    obtain ⟨hrest, -, hlt⟩ := read_eintr h
    unfold left
    rw [hrest]
    omega
  | fail =>
    unfold read at h
    split at h
    · cases h
    · cases h
    · rename_i moods hm
      obtain ⟨-, rfl⟩ := Prod.mk.inj h
      unfold left
      rw [hm, List.length_cons]
      exact Nat.add_le_add_left (Nat.le_succ _) _
    · cases h
  | data p =>
    have := read_data_left h
    omega

/-- **A loop that reads to the end ends**: every call before uses something up. -/
theorem read_left (h : f.read n = (r, g)) (hr : r = .eintr ∨ ∃ a p, r = .data (a :: p)) :
    g.left < f.left := by
  rcases hr with rfl | ⟨a, p, rfl⟩
  · obtain ⟨hrest, -, hlt⟩ := read_eintr h
    unfold left
    rw [hrest]
    omega
  · have := read_data_left h
    rw [List.length_cons] at this
    omega

theorem Calm.read (hf : f.Calm) (h : f.read n = (r, g)) : r ≠ .fail ∧ g.Calm := by
  cases r with
  | data p =>
    obtain ⟨m, moods, hadv, -, -, -, hc⟩ := read_eq_advance h
    obtain ⟨-, -, -, hmoods⟩ := advance_data hadv
    refine ⟨nofun, ?_⟩
    rw [Calm, hmoods]
    exact hc hf
  | eintr =>
    refine ⟨nofun, ?_⟩
    unfold Reader.read at h
    unfold Calm at hf ⊢
    split at h
    · cases h
    · rename_i moods hm
      obtain ⟨-, rfl⟩ := Prod.mk.inj h
      rw [hm] at hf
      exact fun hmem => hf (List.mem_cons_of_mem _ hmem)
    · cases h
    · cases h
  | fail =>
    unfold Reader.read at h
    unfold Calm at hf
    split at h
    · cases h
    · cases h
    · rename_i moods hm
      rw [hm] at hf
      exact absurd List.mem_cons_self hf
    · cases h

/-- No call fails or is interrupted. -/
def Smooth (f : Reader α) : Prop := ∀ mood ∈ f.moods, ∃ k, mood = .upTo k

theorem Smooth.calm (hf : f.Smooth) : f.Calm := by
  intro h
  obtain ⟨k, hk⟩ := hf _ h
  cases hk

theorem Smooth.read (hf : f.Smooth) (h : f.read n = (r, g)) : r ≠ .eintr ∧ g.Smooth := by
  unfold Reader.read at h
  unfold Smooth at hf ⊢
  split at h
  · obtain ⟨rfl, rfl⟩ := Prod.mk.inj h
    exact ⟨nofun, nofun⟩
  · rename_i moods hm
    obtain ⟨k, hk⟩ := hf .eintr (hm ▸ List.mem_cons_self)
    cases hk
  · rename_i moods hm
    obtain ⟨k, hk⟩ := hf .fail (hm ▸ List.mem_cons_self)
    cases hk
  · rename_i k moods hm
    obtain ⟨rfl, rfl⟩ := Prod.mk.inj h
    exact ⟨nofun, fun mood hmem => hf mood (hm ▸ List.mem_cons_of_mem _ hmem)⟩

/-- `lseek` to an offset from the beginning. -/
def seek (f : Reader α) (pos : ℕ) : Reader α := { f with pos }

@[simp] theorem seek_rest (pos : ℕ) : (f.seek pos).rest = f.content.drop pos := rfl

@[simp] theorem seek_content (pos : ℕ) : (f.seek pos).content = f.content := rfl

theorem Calm.seek (hf : f.Calm) (pos : ℕ) : (f.seek pos).Calm := hf

end Reader

end Lib
end RuShell
