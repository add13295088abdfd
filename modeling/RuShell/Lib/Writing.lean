import RuShell.Lib.Reading

/-!
# Writing to a descriptor

One call of `write` may transfer fewer bytes than it was given, may be
interrupted by a signal before it has transferred any, or may fail.

## Main definitions

* `Writer` — what has been written to a descriptor, and how the next calls will go.
* `Writer.write w buf` — one call.

## Main results

* `Writer.write_wrote`, `Writer.write_eintr` — what each result says about the
  bytes that have been written.
* `Writer.write_left` — a loop that goes on until everything is written ends.
-/

namespace RuShell
namespace Lib

/-- What one call of `write` returns. -/
inductive WriteResult
  | eintr
  | fail
  /-- The number of bytes transferred. -/
  | wrote (n : ℕ)
  deriving DecidableEq, Repr

/-- A descriptor that is written to. -/
structure Writer (α : Type*) where
  /-- What has been written, after what was there before. -/
  written : List α
  /-- How the next calls will go. -/
  moods : List Mood

namespace Writer

variable {α : Type*} {w w' : Writer α} {buf : List α} {n : ℕ} {r : WriteResult}

/-- The transfer of the first `n` bytes. -/
def put (w : Writer α) (buf : List α) (n : ℕ) (moods : List Mood) : WriteResult × Writer α :=
  (.wrote n, ⟨w.written ++ buf.take n, moods⟩)

/-- One call of `write`. -/
def write (w : Writer α) (buf : List α) : WriteResult × Writer α :=
  match w.moods with
  | [] => w.put buf buf.length []
  | .eintr :: moods => (.eintr, { w with moods })
  | .fail :: moods => (.fail, { w with moods })
  | .upTo k :: moods => w.put buf (min (k + 1) buf.length) moods

/-- No call fails, interruptions apart. -/
def Calm (w : Writer α) : Prop := Mood.fail ∉ w.moods

/-- The bytes that a call takes are the first ones, and it takes one at least. -/
theorem write_wrote (h : w.write buf = (.wrote n, w')) :
    w'.written = w.written ++ buf.take n ∧ (buf ≠ [] → 0 < n) ∧ n ≤ buf.length ∧
      w'.moods.length ≤ w.moods.length := by
  unfold write put at h
  split at h
  · rename_i hm
    obtain ⟨hn, rfl⟩ := Prod.mk.inj h
    obtain rfl := WriteResult.wrote.inj hn
    exact ⟨rfl, List.length_pos_iff.mpr, Nat.le_refl _, Nat.zero_le _⟩
  · cases h
  · cases h
  · rename_i k moods hm
    obtain ⟨hn, rfl⟩ := Prod.mk.inj h
    obtain rfl := WriteResult.wrote.inj hn
    refine ⟨rfl, fun hbuf => ?_, Nat.min_le_right _ _, ?_⟩
    · exact Nat.lt_min.mpr ⟨Nat.succ_pos k, List.length_pos_iff.mpr hbuf⟩
    · rw [hm]
      exact Nat.le_succ _

/-- An interrupted call has transferred nothing. -/
theorem write_eintr (h : w.write buf = (.eintr, w')) :
    w'.written = w.written ∧ w'.moods.length < w.moods.length := by
  unfold write put at h
  split at h
  · cases h
  · rename_i moods hm
    obtain ⟨-, rfl⟩ := Prod.mk.inj h
    rw [hm]
    exact ⟨rfl, Nat.lt_succ_self _⟩
  · cases h
  · cases h

theorem Calm.write (hw : w.Calm) (h : w.write buf = (r, w')) : r ≠ .fail ∧ w'.Calm := by
  unfold Writer.write put at h
  unfold Calm at hw ⊢
  split at h
  · obtain ⟨rfl, rfl⟩ := Prod.mk.inj h
    exact ⟨nofun, List.not_mem_nil⟩
  · rename_i moods hm
    obtain ⟨rfl, rfl⟩ := Prod.mk.inj h
    rw [hm] at hw
    exact ⟨nofun, fun hmem => hw (List.mem_cons_of_mem _ hmem)⟩
  · rename_i moods hm
    rw [hm] at hw
    exact absurd List.mem_cons_self hw
  · rename_i k moods hm
    obtain ⟨rfl, rfl⟩ := Prod.mk.inj h
    rw [hm] at hw
    exact ⟨nofun, fun hmem => hw (List.mem_cons_of_mem _ hmem)⟩

/-- **A loop that writes everything ends.** -/
theorem write_left (hbuf : buf ≠ []) (h : w.write buf = (.wrote n, w')) :
    w'.moods.length + (buf.drop n).length < w.moods.length + buf.length := by
  obtain ⟨-, hpos, hle, hmoods⟩ := write_wrote h
  have := hpos hbuf
  rw [List.length_drop]
  omega

end Writer
end Lib
end RuShell
