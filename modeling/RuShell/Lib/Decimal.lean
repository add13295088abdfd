import Mathlib.Algebra.Group.Nat.Defs
import Mathlib.Data.List.TakeWhile
import Mathlib.Tactic.Common

/-!
# Numbers in text

How `printf` writes an integer in decimal, and how `scanf` reads one back.

## Main definitions

* `decimal z` — `%d` and `%ld` of `printf`.
* `isspace` — white space in the C locale.
* `scanInt s` — `%d` and `%ld` of `scanf`, before the conversion to the type of
  the variable: the number and what follows it.

## Main results

* `scanInt_decimal` — **a number that was printed is read back**, if no digit
  follows it.
* `length_decimal_of_scanInt` — a number is not written longer than it was read.
-/

namespace RuShell
namespace Lib

/-- White space in the C locale. -/
def isspace (c : Char) : Bool :=
  c == ' ' || c == '\t' || c == '\n' || c == '\x0b' || c == '\x0c' || c == '\r'

/-- An integer in decimal. -/
def decimal (z : ℤ) : List Char :=
  if z < 0 then '-' :: Nat.toDigits 10 z.natAbs else Nat.toDigits 10 z.natAbs

/-- The digits at the beginning of a text, at least one. -/
def scanNat (s : List Char) : Option (ℕ × List Char) :=
  if s.takeWhile Char.isDigit = [] then none
  else some (Nat.ofDigitChars 10 (s.takeWhile Char.isDigit) 0, s.dropWhile Char.isDigit)

/-- White space, an optional sign and digits. -/
def scanInt (s : List Char) : Option (ℤ × List Char) :=
  match s.dropWhile isspace with
  | [] => none
  | c :: s =>
    if c = '-' then (scanNat s).map fun r => (-(r.1 : ℤ), r.2)
    else if c = '+' then (scanNat s).map fun r => ((r.1 : ℤ), r.2)
    else (scanNat (c :: s)).map fun r => ((r.1 : ℤ), r.2)

theorem isDigit_of_mem_toDigits {n : ℕ} {c : Char} (h : c ∈ Nat.toDigits 10 n) :
    c.isDigit = true :=
  Nat.isDigit_of_mem_toDigits (by decide) (by decide) h

/-- A digit is neither white space nor a sign. -/
theorem isspace_of_isDigit {c : Char} (h : c.isDigit = true) :
    isspace c = false ∧ c ≠ '-' ∧ c ≠ '+' := by
  have hne : ∀ d : Char, d.isDigit = false → c ≠ d := by
    rintro d hd rfl
    rw [h] at hd
    cases hd
  refine ⟨?_, hne _ (by decide), hne _ (by decide)⟩
  simp only [isspace, Bool.or_eq_false_iff, beq_eq_false_iff_ne]
  exact ⟨⟨⟨⟨⟨hne _ (by decide), hne _ (by decide)⟩, hne _ (by decide)⟩, hne _ (by decide)⟩,
    hne _ (by decide)⟩, hne _ (by decide)⟩

/-- A text in which no digit comes first. -/
def NoDigit (s : List Char) : Prop := ∀ c ∈ s.head?, c.isDigit = false

variable {s : List Char} {z : ℤ}

theorem scanNat_toDigits (n : ℕ) (hs : NoDigit s) :
    scanNat (Nat.toDigits 10 n ++ s) = some (n, s) := by
  have hdigits : ∀ c ∈ Nat.toDigits 10 n, c.isDigit = true := fun c => isDigit_of_mem_toDigits
  have htake : s.takeWhile Char.isDigit = [] ∧ s.dropWhile Char.isDigit = s := by
    cases s with
    | nil => exact ⟨rfl, rfl⟩
    | cons c s =>
      have hc : c.isDigit = false := hs c rfl
      simp [hc]
  unfold scanNat
  rw [List.takeWhile_append_of_pos hdigits, List.dropWhile_append_of_pos hdigits, htake.1,
    htake.2, List.append_nil, if_neg Nat.toDigits_ne_nil,
    Nat.ofDigitChars_toDigits (by decide) (by decide)]

/-- **A number that was printed is read back.** -/
theorem scanInt_decimal (z : ℤ) (hs : NoDigit s) :
    scanInt (decimal z ++ s) = some (z, s) := by
  unfold scanInt decimal
  by_cases hz : z < 0
  · rw [if_pos hz, List.cons_append, List.dropWhile_cons_of_neg (by decide)]
    simp only [if_true, scanNat_toDigits _ hs, Option.map_some, Option.some.injEq, Prod.mk.injEq,
      and_true]
    omega
  · rw [if_neg hz]
    -- the first digit decides that there is no space and no sign
    cases hd : Nat.toDigits 10 z.natAbs with
    | nil => exact absurd hd Nat.toDigits_ne_nil
    | cons c ds =>
      obtain ⟨hspace, hminus, hplus⟩ :=
        isspace_of_isDigit (isDigit_of_mem_toDigits (hd ▸ List.mem_cons_self))
      have hscan : scanNat (c :: (ds ++ s)) = some (z.natAbs, s) := by
        rw [← List.cons_append, ← hd]
        exact scanNat_toDigits _ hs
      rw [List.cons_append, List.dropWhile_cons_of_neg (by simp [hspace])]
      simp only [hminus, hplus, if_false, hscan, Option.map_some, Option.some.injEq,
        Prod.mk.injEq, and_true]
      omega

/-- Of a number that is cut short nothing is left over. -/
theorem scanInt_take_decimal {k : ℕ} {x : ℤ × List Char}
    (h : scanInt ((decimal z).take k) = some x) : x.2 = [] := by
  have hdigits : ∀ j, ∀ c ∈ (Nat.toDigits 10 z.natAbs).take j, c.isDigit = true :=
    fun j c hc => isDigit_of_mem_toDigits (List.mem_of_mem_take hc)
  have hrest : ∀ {t : List Char} {x : ℕ × List Char}, (∀ c ∈ t, c.isDigit = true) →
      scanNat t = some x → x.2 = [] := by
    intro t x ht hx
    unfold scanNat at hx
    split at hx
    · cases hx
    · cases hx
      exact List.dropWhile_eq_nil_iff.mpr ht
  unfold scanInt decimal at h
  split_ifs at h
  · cases k with
    | zero => cases h
    | succ k =>
      rw [List.take_succ_cons, List.dropWhile_cons_of_neg (by decide)] at h
      obtain ⟨y, hy, rfl⟩ := Option.map_eq_some_iff.mp h
      exact hrest (hdigits k) hy
  · cases ht : (Nat.toDigits 10 z.natAbs).take k with
    | nil =>
      rw [ht] at h
      cases h
    | cons c t =>
      have hall := hdigits k
      rw [ht] at h hall
      obtain ⟨hspace, hminus, hplus⟩ := isspace_of_isDigit (hall c List.mem_cons_self)
      rw [List.dropWhile_cons_of_neg (by simp [hspace])] at h
      simp only [hminus, hplus, if_false] at h
      obtain ⟨y, hy, rfl⟩ := Option.map_eq_some_iff.mp h
      exact hrest hall hy

/-! ### Lengths -/

/-- A number has as many digits as it takes. -/
theorem length_decimal_le {k : ℕ} (hk : 0 < k) (hz : z.natAbs < 10 ^ k) :
    (decimal z).length ≤ k + if z < 0 then 1 else 0 := by
  have hlen := (Nat.length_toDigits_le_iff (by decide) hk).mpr hz
  unfold decimal
  split
  · exact Nat.succ_le_succ hlen
  · exact hlen

theorem length_decimal_mono {y : ℤ} (hle : y.natAbs ≤ z.natAbs) (hsign : y < 0 → z < 0) :
    (decimal y).length ≤ (decimal z).length := by
  have hpos : 0 < (Nat.toDigits 10 z.natAbs).length := Nat.length_toDigits_pos
  have hlen := (Nat.length_toDigits_le_iff (by decide) hpos).mp (Nat.le_refl _)
  refine (length_decimal_le hpos (hle.trans_lt hlen)).trans ?_
  by_cases hy : y < 0
  · rw [if_pos hy, decimal, if_pos (hsign hy), List.length_cons]
  · rw [if_neg hy, Nat.add_zero, decimal]
    split
    · exact Nat.le_succ _
    · exact Nat.le_refl _

theorem ofDigitChars_lt {ds : List Char} (h : ∀ c ∈ ds, c.isDigit = true) (n : ℕ) :
    Nat.ofDigitChars 10 ds n < (n + 1) * 10 ^ ds.length := by
  induction ds generalizing n with
  | nil => simp
  | cons c ds ih =>
    have hc : c.toNat - '0'.toNat < 10 := by
      have := h c List.mem_cons_self
      simp only [Char.isDigit, Bool.and_eq_true, decide_eq_true_eq, UInt32.le_iff_toNat_le] at this
      have h9 : c.toNat ≤ 57 := this.2
      have h0 : '0'.toNat = 48 := rfl
      omega
    rw [Nat.ofDigitChars_cons, List.length_cons, Nat.pow_succ']
    refine (ih (fun d hd => h d (List.mem_cons_of_mem _ hd)) _).trans_le ?_
    rw [← Nat.mul_assoc]
    exact Nat.mul_le_mul_right _ (by omega)

theorem scanNat_lt {x : ℕ × List Char} (h : scanNat s = some x) :
    0 < s.length ∧ x.1 < 10 ^ s.length := by
  unfold scanNat at h
  split at h
  · cases h
  · rename_i hne
    cases h
    have hle := (List.takeWhile_sublist (l := s) Char.isDigit).length_le
    have hdigits : ∀ c ∈ s.takeWhile Char.isDigit, c.isDigit = true :=
      fun c hc => List.mem_takeWhile_imp hc
    have hlt := ofDigitChars_lt hdigits 0
    rw [Nat.zero_add, Nat.one_mul] at hlt
    exact ⟨(List.length_pos_iff.mpr hne).trans_le hle,
      hlt.trans_le (Nat.pow_le_pow_right (by decide) hle)⟩

/-- **A number is not written longer than it was read.** -/
theorem length_decimal_of_scanInt {r : List Char} (h : scanInt s = some (z, r)) :
    (decimal z).length ≤ s.length := by
  have hle := (List.dropWhile_sublist (l := s) isspace).length_le
  have hdigits : ∀ {t : List Char} {x : ℕ × List Char} {z : ℤ}, scanNat t = some x →
      z.natAbs = x.1 → (decimal z).length ≤ t.length + if z < 0 then 1 else 0 := by
    intro t x z hx hz
    obtain ⟨hpos, hlt⟩ := scanNat_lt hx
    exact length_decimal_le hpos (hz ▸ hlt)
  unfold scanInt at h
  split at h
  · cases h
  · rename_i c t ht
    rw [ht, List.length_cons] at hle
    split_ifs at h
    · obtain ⟨x, hx, heq⟩ := Option.map_eq_some_iff.mp h
      have hlen := hdigits (z := -(x.1 : ℤ)) hx (by omega)
      rw [← (Prod.mk.inj heq).1]
      split at hlen <;> omega
    · obtain ⟨x, hx, heq⟩ := Option.map_eq_some_iff.mp h
      have hlen := hdigits (z := x.1) hx (by omega)
      rw [if_neg (Int.not_lt.mpr (Int.natCast_nonneg _))] at hlen
      rw [← (Prod.mk.inj heq).1]
      omega
    · obtain ⟨x, hx, heq⟩ := Option.map_eq_some_iff.mp h
      have hlen := hdigits (z := x.1) hx (by omega)
      rw [if_neg (Int.not_lt.mpr (Int.natCast_nonneg _)), List.length_cons] at hlen
      rw [← (Prod.mk.inj heq).1]
      omega

end Lib
end RuShell
