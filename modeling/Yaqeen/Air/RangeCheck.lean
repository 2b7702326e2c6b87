/-
The range check of the license expiry: on `u64` values the 32 bits and their weighted sum accept
exactly the expiries that exceed the public timestamp by 1 up to `2^32`. Nothing wraps around the
modulus: a timestamp and 32 bits add up to less than it.
-/
import Yaqeen.Air.Soundness

namespace Yaqeen.Air

/-! ## The bits of a number -/

theorem sum_bits (v : ℕ) : ∀ n, ∑ i : Fin n, (v >>> i.val &&& 1) * 2 ^ i.val = v % 2 ^ n
  | 0 => by simp [Nat.mod_one]
  | n + 1 => by
    rw [Fin.sum_univ_castSucc, Nat.mod_pow_succ, ← sum_bits v n, Nat.mul_comm]
    simp [Nat.shiftRight_eq_div_pow, Nat.and_one_is_mod]

/-- A bit of a number, as a cell. -/
def bitCell (v : ℕ) (i : Fin 32) : BaseElement := BaseElement.new (v >>> i.val &&& 1)

theorem bitCell_bool (v : ℕ) (i : Fin 32) : bitCell v i = 0 ∨ bitCell v i = 1 := by
  unfold bitCell
  rw [Nat.and_one_is_mod]
  rcases Nat.mod_two_eq_zero_or_one (v >>> i.val) with h | h <;> rw [h]
  · exact .inl Nat.cast_zero
  · exact .inr Nat.cast_one

/-- The first 32 bits of a number weigh its residue modulo `2^32`. -/
theorem sum_bitCell (v : ℕ) :
    ∑ i : Fin 32, bitCell v i * BaseElement.new (1 <<< i.val) = BaseElement.new (v % 2 ^ 32) := by
  rw [← sum_bits v 32]
  unfold BaseElement.new
  rw [Nat.cast_sum]
  refine Finset.sum_congr rfl fun i _ => ?_
  rw [Nat.one_shiftLeft, Nat.cast_mul]
  rfl

/-! ## Expiry and timestamp -/

/-- The order of two `u64` values behind an equation between their images. -/
theorem expiry_toNat {expiry now : UInt64} {n : ℕ} (hn : n < 2 ^ 32)
    (h : BaseElement.new expiry.toNat = BaseElement.new now.toNat + 1 + BaseElement.new n) :
    expiry.toNat = now.toNat + 1 + n := by
  have hnow := now.toNat_lt
  have hsum : BaseElement.new now.toNat + 1 + BaseElement.new n = BaseElement.new (now.toNat + 1 + n) := by
    unfold BaseElement.new
    push_cast
    rfl
  refine new_inj (u64_lt_modulus expiry) ?_ (h.trans hsum)
  unfold modulus
  omega

/-- An expiry the range check is for: after the timestamp, by at most `2^32`. -/
def InRange (expiry now : UInt64) : Prop :=
  now.toNat < expiry.toNat ∧ expiry.toNat - now.toNat ≤ 2 ^ 32

theorem inRange_of_eq {expiry now : UInt64} {n : ℕ} (hn : n < 2 ^ 32)
    (h : BaseElement.new expiry.toNat = BaseElement.new now.toNat + 1 + BaseElement.new n) : InRange expiry now := by
  have := expiry_toNat hn h
  constructor <;> omega

/-! ## The constraints of the range check -/

/-- The range-check constraints, 16 to 48, are zero on a pair of rows. -/
def RangeCheck (pubInputs : PublicInputs) (cur nxt : Row BaseElement) (i : ℕ) : Prop :=
  ∀ k : Fin 49, 16 ≤ k.val → evaluateTransition pubInputs cur nxt (periodicValues i) k = 0

section

variable {pubInputs : PublicInputs} {cur nxt : Row BaseElement}

/-- On the first row of a leaf job they say that the bits are bits and weigh the difference less one. -/
theorem rangeCheck_iff (job : ℕ) (hleaf : cur tLeaf = 1) : RangeCheck pubInputs cur nxt (jobStartRow job) ↔
    (∀ i, cur (rcBit i) = 0 ∨ cur (rcBit i) = 1) ∧
      weighted cur = cur auxD - pubInputs.currentTimestamp - 1 := by
  have hsum : evaluateTransition pubInputs cur nxt (periodicValues (jobStartRow job)) 48 =
      weighted cur - (cur auxD - pubInputs.currentTimestamp - 1) := by
    show periodicValues (jobStartRow job) 8 * cur tLeaf * (weighted cur - _) = _
    rw [periodicValues_first, jobStartRow, if_pos (Nat.mul_mod_left _ _), hleaf, one_mul, one_mul]
    rfl
  constructor
  · refine fun h => ⟨fun i => ?_, ?_⟩
    · have := h ⟨16 + i.val, by omega⟩ (Nat.le_add_right _ _)
      rwa [evaluateTransition_rangeBit, boolean_iff] at this
    · exact sub_eq_zero.1 (hsum.symm.trans (h 48 (by decide)))
  · rintro ⟨hbits, hweighted⟩ k hk
    by_cases h48 : k.val = 48
    · rw [show k = 48 from Fin.ext h48, hsum, hweighted, sub_self]
    · obtain ⟨i, hi⟩ : ∃ i : Fin 32, 16 + i.val = k.val :=
        ⟨⟨k.val - 16, by omega⟩, Nat.add_sub_cancel' hk⟩
      rw [show k = ⟨16 + i.val, hi ▸ k.isLt⟩ from Fin.ext hi.symm, evaluateTransition_rangeBit, boolean_iff]
      exact hbits i

end

/-- The row a range check passes on: a leaf row with an expiry and the bits of a number. -/
def rangeRow (expiry : BaseElement) (v : ℕ) : Row BaseElement := fun c =>
  if 18 ≤ c.val then bitCell v (Fin.ofNat 32 (c.val - 18))
  else if c = tLeaf then 1
  else if c = auxD then expiry
  else 0

theorem rangeRow_rcBit (expiry : BaseElement) (v : ℕ) (i : Fin 32) : rangeRow expiry v (rcBit i) = bitCell v i := by
  unfold rangeRow
  rw [if_pos (show 18 ≤ (rcBit i).val from Nat.le_add_right _ _)]
  have hi : Fin.ofNat 32 ((rcBit i).val - 18) = i := by
    refine Fin.ext ?_
    show (18 + i.val - 18) % 32 = i.val
    rw [Nat.add_sub_cancel_left, Nat.mod_eq_of_lt i.isLt]
  rw [hi]

/-- The range check accepts a pair of `u64` values on some leaf row exactly when the expiry is in range. -/
theorem exists_rangeCheck_iff {pubInputs : PublicInputs} {expiry now : UInt64}
    (hnow : pubInputs.currentTimestamp = BaseElement.new now.toNat) (nxt : Row BaseElement) (job : ℕ) :
    (∃ cur : Row BaseElement, cur tLeaf = 1 ∧ cur auxD = BaseElement.new expiry.toNat ∧
      RangeCheck pubInputs cur nxt (jobStartRow job)) ↔ InRange expiry now := by
  constructor
  · rintro ⟨cur, hleaf, hexpiry, h⟩
    obtain ⟨hbits, hweighted⟩ := (rangeCheck_iff job hleaf).1 h
    -- boolean cells weigh some number below 2^32, whichever they are
    obtain ⟨n, hn, hw⟩ := weighted_of_bits hbits
    rw [hw, hexpiry, hnow] at hweighted
    exact inRange_of_eq hn (by linear_combination -hweighted)
  · rintro ⟨hlt, hle⟩
    refine ⟨rangeRow (BaseElement.new expiry.toNat) (expiry.toNat - now.toNat - 1), rfl, rfl,
      (rangeCheck_iff job rfl).2 ⟨fun i => ?_, ?_⟩⟩
    · rw [rangeRow_rcBit]
      exact bitCell_bool _ i
    · have hweighted : weighted (rangeRow (BaseElement.new expiry.toNat) (expiry.toNat - now.toNat - 1)) =
          BaseElement.new (expiry.toNat - now.toNat - 1) := by
        rw [← Nat.mod_eq_of_lt (show expiry.toNat - now.toNat - 1 < 2 ^ 32 by omega), ← sum_bitCell]
        unfold weighted
        refine Finset.sum_congr rfl fun i _ => ?_
        rw [rangeRow_rcBit, Nat.mod_eq_of_lt (by omega)]
        rfl
      rw [hweighted, hnow]
      show _ = BaseElement.new expiry.toNat - _ - 1
      unfold BaseElement.new
      rw [Nat.cast_sub (by omega), Nat.cast_sub (by omega), Nat.cast_one]

/-- The range check of the circuit is exact on `u64` values: some leaf row passes it exactly when the
expiry is after the timestamp by at most `2^32`, and so it is in every satisfying table. -/
theorem range_check_exact {pubInputs : PublicInputs} {expiry now : UInt64}
    (hnow : pubInputs.currentTimestamp = BaseElement.new now.toNat) :
    (∀ (nxt : Row BaseElement) (job : ℕ),
      (∃ cur : Row BaseElement, cur tLeaf = 1 ∧ cur auxD = BaseElement.new expiry.toNat ∧
        RangeCheck pubInputs cur nxt (jobStartRow job)) ↔ InRange expiry now) ∧
    ∀ t, Satisfies pubInputs t → t.row rowLeafFirst auxD = BaseElement.new expiry.toNat → InRange expiry now := by
  refine ⟨exists_rangeCheck_iff hnow, fun t h hexpiry => ?_⟩
  obtain ⟨n, hn, heq⟩ := expiry_range h
  rw [show t.row 8 auxD = _ from hexpiry, hnow] at heq
  exact inRange_of_eq hn heq

theorem range_check_exact_sample :
    let pubInputs := (sampleData (absorb [])).publicInputs 0
    (∀ (nxt : Row BaseElement) (job : ℕ),
      (∃ cur : Row BaseElement, cur tLeaf = 1 ∧ cur auxD = BaseElement.new (1 : UInt64).toNat ∧
        RangeCheck pubInputs cur nxt (jobStartRow job)) ↔ InRange 1 0) ∧ InRange 1 0 := by
  intro pubInputs
  have hnow : pubInputs.currentTimestamp = BaseElement.new (0 : UInt64).toNat := Nat.cast_zero.symm
  refine ⟨(range_check_exact hnow).1, (range_check_exact hnow).2 _ (JobData.satisfies_of_fits (sample_fits _)) ?_⟩
  rw [show rowLeafFirst = 8 * 1 from rfl, show auxD = auxCol 3 from rfl, JobData.row_aux _ _ 1 (by decide)]
  exact Nat.cast_one.symm

end Yaqeen.Air
