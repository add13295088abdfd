import RuShell.Lib.Slots

/-!
# Strings in arrays

The string functions of the C library, on arrays with checked accesses.  A pointer is
given by what reading at each offset from it yields, so a pointer into an array
faults where the array does.  The alphabet and its terminator are arbitrary.

## Main definitions

* `Pointer` — what reading at each offset yields.
* `Reads p l` — the elements behind a pointer, as far as they are known.
* `Spells nul p s` — a pointer to the string `s`.
* `strlen`, `strncat`, `strncpy`, `snprintf`, `memcpy` — the functions.
* `strncpyCut` — `strncpy` into a whole array, with a terminator in its last slot.

## Main results

* `strlen_of_spells`, `strncat_spells`, `strncpy_reads`, `strncpyCut_spells`,
  `snprintf_spells` — what the functions do with strings.
* `Spells.push`, `Spells.cut` — one character more, and a terminator further in front.
* `memcpy_reads`, `memcpy_outOfRange` — a copy that stays inside of both arrays, and one
  that leaves its source.
-/

namespace RuShell
namespace Lib

variable {α : Type} {size : ℕ}

/-- An array of `size` elements. -/
abbrev CArray (size : ℕ) (α : Type) := Slots (fun i : ℕ => i < size) α

/-- What reading at each offset of a pointer yields. -/
abbrev Pointer (α : Type) := ℕ → Except Fault α

/-- `p + 1` -/
def Pointer.next (p : Pointer α) : Pointer α := fun k => p (k + 1)

/-! ### What is behind a pointer -/

/-- Reading from the pointer on yields the elements of the list. -/
def Reads (p : Pointer α) (l : List α) : Prop := ∀ k c, l[k]? = some c → p k = .ok c

section Reads

variable {p : Pointer α} {l m : List α} {c : α} {b : CArray size α}

theorem reads_nil : Reads p [] := by
  intro k c h
  cases h

theorem reads_cons : Reads p (c :: l) ↔ p 0 = .ok c ∧ Reads p.next l := by
  constructor
  · intro h
    exact ⟨h 0 c rfl, fun k d hk => h (k + 1) d hk⟩
  · rintro ⟨h0, hnext⟩ k d hk
    cases k with
    | zero =>
      cases hk
      exact h0
    | succ k => exact hnext k d hk

theorem Reads.of_isPrefix (h : Reads p m) (hl : l <+: m) : Reads p l := by
  obtain ⟨t, rfl⟩ := hl
  intro k d hk
  have hlt : k < l.length := (List.getElem?_eq_some_iff.mp hk).1
  exact h k d (by rw [List.getElem?_append_left hlt, hk])

/-- What can be read lies in the array. -/
theorem Reads.length_le (h : Reads b.read l) : l.length ≤ size := by
  cases l using List.reverseRecOn with
  | nil => exact Nat.zero_le _
  | append_singleton l c =>
    have hlast := h l.length c List.getElem?_concat_length
    have hlt : l.length < size := (Slots.holds_of_read hlast).1
    rw [List.length_append, List.length_singleton]
    omega

theorem write_of_lt {i : ℕ} (hi : i < size) (b : CArray size α) (c : α) :
    ∃ b', b.write i c = .ok b' ∧ b'.Holds i c ∧ ∀ j d, j ≠ i → b.Holds j d → b'.Holds j d :=
  @Slots.write_of_room ℕ α (· < size) i _ _ hi b c

theorem write_of_le {i : ℕ} (hi : size ≤ i) (b : CArray size α) (c : α) :
    b.write i c = .error .outOfRange := if_neg (Nat.not_lt.mpr hi)

/-- Writing behind what has been written. -/
theorem Reads.write (h : Reads b.read l) (hl : l.length < size) (c : α) :
    Returns (b.write l.length c) fun b' => Reads b'.read (l ++ [c]) := by
  obtain ⟨b', hb', hself, hother⟩ := write_of_lt hl b c
  refine ⟨b', hb', fun k d hk => ?_⟩
  by_cases hkl : k = l.length
  · subst hkl
    rw [List.getElem?_concat_length] at hk
    injection hk with hk
    rw [← hk]
    exact Slots.read_of_holds hself
  · have hlt : k < (l ++ [c]).length := (List.getElem?_eq_some_iff.mp hk).1
    rw [List.length_append, List.length_singleton] at hlt
    rw [List.getElem?_append_left (by omega)] at hk
    exact Slots.read_of_holds (hother k d hkl (Slots.holds_of_read (h k d hk)))

end Reads

/-! ### Copying bytes -/

section Memcpy

/-- The loop of `memcpy`, at index `i` of the destination. -/
def memcpyLoop : ℕ → Pointer α → ℕ → CArray size α → Except Fault (CArray size α)
  | 0, _, _, b => .ok b
  | n + 1, p, i, b => do
    let c ← p 0
    let b ← b.write i c
    memcpyLoop n p.next (i + 1) b

/-- `memcpy(b, p, n)` -/
def memcpy (b : CArray size α) (p : Pointer α) (n : ℕ) : Except Fault (CArray size α) :=
  memcpyLoop n p 0 b

variable {p : Pointer α} {l m : List α} {b : CArray size α}

theorem memcpyLoop_reads (hp : Reads p l) (hb : Reads b.read m)
    (hroom : m.length + l.length ≤ size) :
    Returns (memcpyLoop l.length p m.length b) fun b' => Reads b'.read (m ++ l) := by
  induction l generalizing p m b with
  | nil =>
    rw [List.append_nil]
    exact .ok hb
  | cons c l ih =>
    obtain ⟨h0, hnext⟩ := reads_cons.mp hp
    rw [List.length_cons] at hroom
    rw [List.length_cons, memcpyLoop, h0]
    refine (hb.write (by omega) c).bind fun b' hb' => ?_
    have hstep := ih hnext hb' (by simp only [List.length_append, List.length_singleton]; omega)
    rwa [List.length_append, List.length_singleton, List.append_assoc] at hstep

/-- A copy of what is known, into an array that is large enough. -/
theorem memcpy_reads (hp : Reads p l) (hroom : l.length ≤ size) :
    Returns (memcpy b p l.length) fun b' => Reads b'.read l :=
  memcpyLoop_reads (m := []) hp reads_nil (by simpa using hroom)

/-- A copy of more than there is behind the pointer. -/
theorem memcpyLoop_outOfRange {n i : ℕ} (hp : Reads p l)
    (hend : p l.length = .error .outOfRange) (hn : l.length < n) :
    memcpyLoop n p i b = .error .outOfRange := by
  induction l generalizing p n i b with
  | nil =>
    obtain ⟨n, rfl⟩ : ∃ k, n = k + 1 := ⟨n - 1, by simp at hn; omega⟩
    have h0 : p 0 = .error .outOfRange := hend
    rw [memcpyLoop, h0]
    rfl
  | cons c l ih =>
    obtain ⟨h0, hnext⟩ := reads_cons.mp hp
    rw [List.length_cons] at hn
    obtain ⟨n, rfl⟩ : ∃ k, n = k + 1 := ⟨n - 1, by omega⟩
    rw [memcpyLoop, h0]
    change (b.write i c >>= fun b => memcpyLoop n p.next (i + 1) b) = .error .outOfRange
    -- the destination may come to its end before the source does
    by_cases hi : i < size
    · obtain ⟨b', hb', -, -⟩ := write_of_lt hi b c
      rw [hb']
      exact ih hnext hend (by omega)
    · rw [write_of_le (Nat.not_lt.mp hi) b c]
      rfl

theorem memcpy_outOfRange {n : ℕ} (hp : Reads p l) (hend : p l.length = .error .outOfRange)
    (hn : l.length < n) : memcpy b p n = .error .outOfRange := memcpyLoop_outOfRange hp hend hn

end Memcpy

/-! ### Strings -/

section Strings

variable (nul : α)

/-- The pointer refers to the string `s`. -/
structure Spells (p : Pointer α) (s : List α) : Prop where
  noNul : nul ∉ s
  reads : Reads p (s ++ [nul])

/-- A pointer to a string that lies somewhere in memory. -/
def chars (s : List α) : Pointer α := fun k =>
  match (s ++ [nul])[k]? with
  | some c => .ok c
  | none => .error .outOfRange

theorem reads_chars (s : List α) : Reads (chars nul s) (s ++ [nul]) := by
  intro k c hk
  unfold chars
  rw [hk]

variable {nul} {p : Pointer α} {s : List α} {b : CArray size α}

theorem spells_nil : Spells nul p [] ↔ p 0 = .ok nul := by
  constructor
  · intro h
    exact h.reads 0 nul rfl
  · intro h
    exact ⟨List.not_mem_nil, reads_cons.mpr ⟨h, reads_nil⟩⟩

theorem spells_cons {c : α} :
    Spells nul p (c :: s) ↔ c ≠ nul ∧ p 0 = .ok c ∧ Spells nul p.next s := by
  constructor
  · intro h
    obtain ⟨h0, hnext⟩ := reads_cons.mp h.reads
    obtain ⟨hc, hs⟩ := not_or.mp (mt List.mem_cons.mpr h.noNul)
    exact ⟨fun hc' => hc hc'.symm, h0, hs, hnext⟩
  · rintro ⟨hc, h0, hs⟩
    refine ⟨?_, reads_cons.mpr ⟨h0, hs.reads⟩⟩
    intro hmem
    rcases List.mem_cons.mp hmem with hmem | hmem
    · exact hc hmem.symm
    · exact hs.noNul hmem

theorem spells_chars (hs : nul ∉ s) : Spells nul (chars nul s) s := ⟨hs, reads_chars nul s⟩

theorem Spells.length_lt (h : Spells nul b.read s) : s.length < size := by
  have hle := h.reads.length_le
  rw [List.length_append, List.length_singleton] at hle
  omega

/-- What is in front of the terminator can be read. -/
theorem Spells.reads_text (h : Spells nul p s) : Reads p s :=
  h.reads.of_isPrefix (List.prefix_append s [nul])

/-- **One character more**, and the terminator behind it. -/
theorem Spells.push (h : Spells nul b.read s) {c : α} (hc : c ≠ nul) (hroom : s.length + 1 < size) :
    Returns (b.write s.length c >>= fun b => b.write (s.length + 1) nul) fun b' =>
      Spells nul b'.read (s ++ [c]) := by
  refine (h.reads_text.write (by omega) c).bind fun b₁ hb₁ => ?_
  have hlen : (s ++ [c]).length = s.length + 1 := by
    rw [List.length_append, List.length_singleton]
  have hwrite := hb₁.write (by rw [hlen]; exact hroom) nul
  rw [hlen] at hwrite
  refine hwrite.mono fun b₂ hb₂ => ⟨?_, hb₂⟩
  intro hmem
  rcases List.mem_append.mp hmem with hmem | hmem
  · exact h.noNul hmem
  · exact hc (List.mem_singleton.mp hmem).symm

/-- **A terminator inside of the string** ends it there. -/
theorem Spells.cut (h : Spells nul b.read s) {n : ℕ} (hn : n ≤ s.length) :
    Returns (b.write n nul) fun b' => Spells nul b'.read (s.take n) := by
  have hlen : (s.take n).length = n := List.length_take_of_le hn
  have hreads : Reads b.read (s.take n) := h.reads_text.of_isPrefix (List.take_prefix n s)
  have hlt := h.length_lt
  have hwrite := hreads.write (by omega) nul
  rw [hlen] at hwrite
  exact hwrite.mono fun b' hb' => ⟨fun hmem => h.noNul (List.mem_of_mem_take hmem), hb'⟩

/-- A string and its terminator are in front of what is padded. -/
theorem take_append_nul_isPrefix (s : List α) (n : ℕ) (nul : α) :
    s.take n ++ [nul] <+: (s ++ List.replicate n nul).take n ++ [nul] := by
  by_cases hn : n ≤ s.length
  · rewrite [List.take_append_of_le_length hn]
    exact List.prefix_rfl
  · have hlt : s.length ≤ n := by omega
    obtain ⟨k, hk⟩ : ∃ k, n - s.length = k + 1 := ⟨n - s.length - 1, by omega⟩
    rw [List.take_of_length_le hlt, List.take_append, List.take_of_length_le hlt,
      List.take_replicate, hk, Nat.min_eq_left (by omega), List.replicate_succ]
    exact ⟨List.replicate k nul ++ [nul], by simp⟩

/-- Padding one shorter. -/
theorem take_append_replicate_succ (s : List α) (n : ℕ) (a : α) :
    (s ++ List.replicate (n + 1) a).take n = (s ++ List.replicate n a).take n := by
  rw [List.take_append, List.take_append, List.take_replicate, List.take_replicate]
  congr 2
  omega

end Strings

/-! ### The functions -/

section Functions

variable [DecidableEq α] (nul : α)

/-- The string that begins at the pointer, read up to its terminator. -/
def scanText : ℕ → Pointer α → Except Fault (List α)
  | 0, _ => .error .outOfRange
  | n + 1, p => do
    let c ← p 0
    if c = nul then .ok []
    else
      let s ← scanText n p.next
      .ok (c :: s)

/-- The string in an array, as `%s` and `strlen` read it. -/
def text (b : CArray size α) : Except Fault (List α) := scanText nul size b.read

/-- `strlen(b)` -/
def strlen (b : CArray size α) : Except Fault ℕ := do
  let s ← text nul b
  .ok s.length

/-- At most `n` characters of a string and then a terminator, from index `i` on. -/
def copyStr : ℕ → Pointer α → ℕ → CArray size α → Except Fault (CArray size α)
  | 0, _, i, b => b.write i nul
  | n + 1, p, i, b => do
    let c ← p 0
    if c = nul then b.write i nul
    else
      let b ← b.write i c
      copyStr n p.next (i + 1) b

/-- `strncat(b, p, n)` -/
def strncat (b : CArray size α) (p : Pointer α) (n : ℕ) : Except Fault (CArray size α) := do
  let i ← strlen nul b
  copyStr nul n p i b

/-- The loop of `strncpy`: behind the end of the string it goes on with terminators. -/
def strncpyLoop : ℕ → Pointer α → ℕ → CArray size α → Except Fault (CArray size α)
  | 0, _, _, b => .ok b
  | n + 1, p, i, b => do
    let c ← p 0
    let b ← b.write i c
    strncpyLoop n (if c = nul then fun _ => .ok nul else p.next) (i + 1) b

/-- `strncpy(b, p, n)` -/
def strncpy (b : CArray size α) (p : Pointer α) (n : ℕ) : Except Fault (CArray size α) :=
  strncpyLoop nul n p 0 b

/-- `strncpy(b, p, sizeof(b) - 1)` and then a terminator in the last slot. -/
def strncpyCut (b : CArray size α) (p : Pointer α) : Except Fault (CArray size α) := do
  let b ← strncpy nul b p (size - 1)
  b.write (size - 1) nul

/-- `snprintf(b, size, …)` for a format that makes `s`: the array, and the length of
the whole text, also of the part that does not fit. -/
def snprintf (b : CArray size α) (s : List α) : Except Fault (CArray size α × ℕ) := do
  let b ← copyStr nul (size - 1) (chars nul s) 0 b
  .ok (b, s.length)

variable {nul} {p : Pointer α} {s l : List α} {b : CArray size α} {n : ℕ}

theorem scanText_of_spells (h : Spells nul p s) (hn : s.length < n) :
    scanText nul n p = .ok s := by
  induction s generalizing p n with
  | nil =>
    obtain ⟨n, rfl⟩ : ∃ k, n = k + 1 := ⟨n - 1, by simp at hn; omega⟩
    rw [scanText, spells_nil.mp h]
    exact if_pos rfl
  | cons c s ih =>
    obtain ⟨hc, h0, hnext⟩ := spells_cons.mp h
    rw [List.length_cons] at hn
    obtain ⟨n, rfl⟩ : ∃ k, n = k + 1 := ⟨n - 1, by omega⟩
    rw [scanText, h0]
    change (if c = nul then .ok [] else scanText nul n p.next >>= fun s => .ok (c :: s)) =
      .ok (c :: s)
    rw [if_neg hc, ih hnext (by omega)]
    rfl

theorem text_of_spells (h : Spells nul b.read s) : text nul b = .ok s :=
  scanText_of_spells h h.length_lt

theorem strlen_of_spells (h : Spells nul b.read s) : strlen nul b = .ok s.length := by
  rw [strlen, text_of_spells h]
  rfl

theorem copyStr_spells (hp : Spells nul p s) (hl : nul ∉ l) (hb : Reads b.read l)
    (hroom : l.length + (s.take n).length < size) :
    Returns (copyStr nul n p l.length b) fun b' => Spells nul b'.read (l ++ s.take n) := by
  induction n generalizing p s l b with
  | zero =>
    rw [List.take_zero, List.append_nil]
    refine (hb.write (by omega) nul).mono fun b' hb' => ⟨hl, hb'⟩
  | succ n ih =>
    cases s with
    | nil =>
      rw [copyStr, spells_nil.mp hp, List.take_nil, List.append_nil]
      change Returns (if nul = nul then b.write l.length nul else _) _
      rw [if_pos rfl]
      exact (hb.write (by omega) nul).mono fun b' hb' => ⟨hl, hb'⟩
    | cons c s =>
      obtain ⟨hc, h0, hnext⟩ := spells_cons.mp hp
      rw [List.take_succ_cons, List.length_cons] at hroom
      rw [copyStr, h0]
      change Returns (if c = nul then b.write l.length nul else
        b.write l.length c >>= fun b => copyStr nul n p.next (l.length + 1) b) _
      rw [if_neg hc]
      refine (hb.write (by omega) c).bind fun b' hb' => ?_
      have hl' : nul ∉ l ++ [c] := by
        intro hmem
        rcases List.mem_append.mp hmem with hmem | hmem
        · exact hl hmem
        · exact hc (List.mem_singleton.mp hmem).symm
      have hstep := ih hnext hl' hb' (by
        simp only [List.length_append, List.length_singleton]
        omega)
      rwa [List.length_append, List.length_singleton, List.append_assoc] at hstep

/-- `strncat` on an array that holds the string `l`. -/
theorem strncat_spells (hb : Spells nul b.read l) (hp : Spells nul p s)
    (hroom : l.length + (s.take n).length < size) :
    Returns (strncat nul b p n) fun b' => Spells nul b'.read (l ++ s.take n) := by
  rw [strncat, strlen_of_spells hb]
  exact copyStr_spells hp hb.noNul hb.reads_text hroom

theorem strncpyLoop_reads (hp : Spells nul p s) (hb : Reads b.read l)
    (hroom : l.length + n ≤ size) :
    Returns (strncpyLoop nul n p l.length b) fun b' =>
      Reads b'.read (l ++ (s ++ List.replicate n nul).take n) := by
  induction n generalizing p s l b with
  | zero =>
    rw [List.take_zero, List.append_nil]
    exact .ok hb
  | succ n ih =>
    have hlen : ∀ c : α, (l ++ [c]).length = l.length + 1 := fun c => by simp
    cases s with
    | nil =>
      rw [strncpyLoop, spells_nil.mp hp]
      refine (hb.write (by omega) nul).bind fun b' hb' => ?_
      have hpad : Spells nul (fun _ => .ok nul) [] := spells_nil.mpr rfl
      have hstep := ih hpad hb' (by rw [hlen]; omega)
      rw [if_pos rfl, ← hlen nul]
      rwa [List.append_assoc] at hstep
    | cons c s =>
      obtain ⟨hc, h0, hnext⟩ := spells_cons.mp hp
      rw [strncpyLoop, h0]
      refine (hb.write (by omega) c).bind fun b' hb' => ?_
      have hstep := ih hnext hb' (by rw [hlen]; omega)
      rw [if_neg hc, ← hlen c]
      rwa [List.append_assoc, ← take_append_replicate_succ] at hstep

/-- What `strncpy` leaves in an array of unknown contents. -/
theorem strncpy_reads (hp : Spells nul p s) (hn : n ≤ size) :
    Returns (strncpy nul b p n) fun b' =>
      Reads b'.read ((s ++ List.replicate n nul).take n) :=
  strncpyLoop_reads (l := []) hp reads_nil (by simpa using hn)

/-- A string, cut to the array by `strncpy` and the terminator behind it. -/
theorem strncpyCut_spells (hp : Spells nul p s) (hsize : 0 < size) :
    Returns (strncpyCut nul b p) fun b' => Spells nul b'.read (s.take (size - 1)) := by
  refine (strncpy_reads hp (Nat.sub_le size 1)).bind fun b₁ hb₁ => ?_
  have hlen : ((s ++ List.replicate (size - 1) nul).take (size - 1)).length = size - 1 := by
    rw [List.length_take, List.length_append, List.length_replicate]
    omega
  have hwrite := hb₁.write (by rw [hlen]; omega) nul
  rw [hlen] at hwrite
  refine hwrite.mono fun b₂ hb₂ => ⟨?_, hb₂.of_isPrefix (take_append_nul_isPrefix s _ nul)⟩
  exact fun hmem => hp.noNul (List.mem_of_mem_take hmem)

/-- A string, cut to the array by `snprintf`. -/
theorem snprintf_spells (hs : nul ∉ s) (hsize : 0 < size) :
    Returns (snprintf nul b s) fun r =>
      Spells nul r.1.read (s.take (size - 1)) ∧ r.2 = s.length := by
  have hcopy : Returns (copyStr nul (size - 1) (chars nul s) 0 b) fun b' =>
      Spells nul b'.read (s.take (size - 1)) := by
    refine copyStr_spells (l := []) (spells_chars hs) List.not_mem_nil reads_nil ?_
    rw [List.length_nil, List.length_take]
    omega
  exact hcopy.bind fun b' hb' => .ok ⟨hb', rfl⟩

end Functions

end Lib
end RuShell
