/-
Decimal numerals as lists of characters: the number a list of digits stands for, and the numerals
without leading zeros, which are exactly the printed numbers; and lists stripped at both ends.
-/
import Mathlib.Data.List.TakeWhile
import Mathlib.Tactic

namespace Decimal

/-! ## Stripping -/

section

variable {α : Type} {p : α → Bool}

variable (p) in
/-- A list without the elements that meet `p` at its two ends. -/
def strip (cs : List α) : List α := ((cs.dropWhile p).reverse.dropWhile p).reverse

theorem dropWhile_of_head {cs : List α} (h : ∀ c ∈ cs.head?, p c = false) : cs.dropWhile p = cs := by
  cases cs with
  | nil => rfl
  | cons c rest => rw [List.dropWhile_cons_of_neg (by rw [h c rfl]; exact Bool.false_ne_true)]

/-- Stripping removes what surrounds a list without such elements. -/
theorem strip_append {before mid after : List α} (hb : ∀ c ∈ before, p c = true) (ha : ∀ c ∈ after, p c = true)
    (hmid : ∀ c ∈ mid, p c = false) (hne : mid ≠ []) : strip p (before ++ mid ++ after) = mid := by
  have hrev : ∀ c ∈ after.reverse, p c = true := fun c hc => ha c (List.mem_reverse.1 hc)
  have hfront : (mid ++ after).dropWhile p = mid ++ after := dropWhile_of_head fun c hc => by
    rw [List.head?_append_of_ne_nil mid hne] at hc
    exact hmid c (List.mem_of_mem_head? hc)
  have hback : mid.reverse.dropWhile p = mid.reverse := dropWhile_of_head fun c hc =>
    hmid c (List.mem_reverse.1 (List.mem_of_mem_head? hc))
  unfold strip
  rw [List.append_assoc, List.dropWhile_append_of_pos hb, hfront, List.reverse_append,
    List.dropWhile_append_of_pos hrev, hback, List.reverse_reverse]

/-- What stripping removes meets the predicate. -/
theorem exists_strip (p : α → Bool) (cs : List α) : ∃ before after,
    (∀ c ∈ before, p c = true) ∧ (∀ c ∈ after, p c = true) ∧ cs = before ++ strip p cs ++ after := by
  refine ⟨cs.takeWhile p, ((cs.dropWhile p).reverse.takeWhile p).reverse, fun c hc => List.mem_takeWhile_imp hc,
    fun c hc => List.mem_takeWhile_imp (List.mem_reverse.1 hc), ?_⟩
  unfold strip
  rw [List.append_assoc, ← List.reverse_append, List.takeWhile_append_dropWhile, List.reverse_reverse,
    List.takeWhile_append_dropWhile]

end

/-! ## Numerals -/

/-- One or more decimal digits. -/
structure Numeral (cs : List Char) : Prop where
  ne_nil : cs ≠ []
  digit : ∀ c ∈ cs, c.isDigit = true

/-- The digit a character stands for. -/
def digitOf (c : Char) : ℕ := c.toNat - '0'.toNat

/-- The number a list of digits stands for, most significant first. -/
def value : List Char → ℕ
  | [] => 0
  | c :: cs => digitOf c * 10 ^ cs.length + value cs

/-- A numeral that starts with a zero only if it is zero. -/
structure Canonical (cs : List Char) : Prop extends Numeral cs where
  lead : cs.head? = some '0' → cs = ['0']

theorem ofDigitChars_eq : ∀ cs, Nat.ofDigitChars 10 cs 0 = value cs
  | [] => Nat.ofDigitChars_nil
  | c :: cs => by
    rw [Nat.ofDigitChars_cons, Nat.ofDigitChars_eq_ofDigitChars_zero, ofDigitChars_eq cs, value, digitOf]
    ring

theorem value_toDigits (n : ℕ) : value (Nat.toDigits 10 n) = n := by
  rw [← ofDigitChars_eq, Nat.ofDigitChars_ten_toDigits]

theorem digit_range {c : Char} (h : c.isDigit = true) : 48 ≤ c.toNat ∧ c.toNat ≤ 57 := by
  simp only [Char.isDigit, Bool.and_eq_true, decide_eq_true_eq, ge_iff_le, UInt32.le_iff_toNat_le] at h
  exact h

theorem digitOf_lt {c : Char} (h : c.isDigit = true) : digitOf c < 10 := by
  have := digit_range h
  show c.toNat - 48 < 10
  omega

theorem digitOf_pos {c : Char} (h : c.isDigit = true) (h0 : c ≠ '0') : 0 < digitOf c := by
  have hne : c.toNat ≠ 48 := fun he => h0 (Char.toNat_inj.1 he)
  have := digit_range h
  show 0 < c.toNat - 48
  omega

theorem toDigits_digitOf {c : Char} (h : c.isDigit = true) : Nat.toDigits 10 (digitOf c) = [c] := by
  have hr := digit_range h
  rw [Nat.toDigits_of_lt_base (digitOf_lt h)]
  congr 1
  apply Char.toNat_inj.1
  rw [Nat.toNat_digitChar_of_lt_ten (digitOf_lt h)]
  show 48 + (c.toNat - 48) = c.toNat
  omega

/-- Digits after a printed positive number print the number they extend it to. -/
theorem toDigits_append : ∀ (cs : List Char) (a : ℕ), 0 < a → (∀ c ∈ cs, c.isDigit = true) →
    Nat.toDigits 10 a ++ cs = Nat.toDigits 10 (a * 10 ^ cs.length + value cs)
  | [], a, _, _ => by simp [value]
  | c :: cs, a, ha, hcs => by
    have hc := hcs c List.mem_cons_self
    have hstep : Nat.toDigits 10 a ++ [c] = Nat.toDigits 10 (10 * a + digitOf c) := by
      rw [← toDigits_digitOf hc, Nat.toDigits_append_toDigits (by omega) ha (digitOf_lt hc)]
    calc Nat.toDigits 10 a ++ c :: cs = (Nat.toDigits 10 a ++ [c]) ++ cs := List.append_cons ..
      _ = Nat.toDigits 10 ((10 * a + digitOf c) * 10 ^ cs.length + value cs) := by
          rw [hstep, toDigits_append cs _ (by omega) fun d hd => hcs d (List.mem_cons_of_mem _ hd)]
      _ = Nat.toDigits 10 (a * 10 ^ (c :: cs).length + value (c :: cs)) := by
          congr 1
          rw [List.length_cons, value]
          ring

/-- A numeral without leading zeros is the printed form of its value. -/
theorem Canonical.toDigits_value {cs : List Char} (h : Canonical cs) : Nat.toDigits 10 (value cs) = cs := by
  cases cs with
  | nil => exact absurd rfl h.ne_nil
  | cons c rest =>
    have hc := h.digit c List.mem_cons_self
    by_cases h0 : c = '0'
    · rw [h.lead (congrArg some h0)]
      rfl
    · have happ := toDigits_append rest (digitOf c) (digitOf_pos hc h0) fun d hd =>
        h.digit d (List.mem_cons_of_mem _ hd)
      rw [value, ← happ, toDigits_digitOf hc]
      rfl

theorem numeral_toDigits (n : ℕ) : Numeral (Nat.toDigits 10 n) :=
  ⟨Nat.toDigits_ne_nil, fun _ hc => Nat.isDigit_of_mem_toDigits (by omega) (by omega) hc⟩

/-- A printed number has no leading zeros. -/
theorem canonical_toDigits (n : ℕ) : Canonical (Nat.toDigits 10 n) := by
  refine ⟨numeral_toDigits n, ?_⟩
  induction n using Nat.strongRecOn with
  | ind n ih =>
    intro hhead
    by_cases hn : n < 10
    · rw [Nat.toDigits_of_lt_base hn] at hhead ⊢
      rw [List.head?_cons, Option.some.injEq] at hhead
      rw [hhead]
    · -- the leading digit is that of `n / 10`, which is positive
      rw [Nat.toDigits_of_base_le (by omega) (by omega), List.head?_append_of_ne_nil _ Nat.toDigits_ne_nil] at hhead
      have hval := congrArg value (ih (n / 10) (by omega) hhead)
      rw [value_toDigits] at hval
      have hzero : value ['0'] = 0 := rfl
      omega

end Decimal
