/-
Events kept apart in time: where any two of a family are at least a distance apart, a window holds at most
one for each full distance in its length, and one more.
-/
import Mathlib.Order.Interval.Finset.Basic
import Mathlib.Data.Int.Interval
import Mathlib.Data.Set.Card
import Mathlib.Tactic

namespace Spacing

variable {ι : Type} {a L d : ℤ}

/-- The full distances from the start of the window to an event. -/
def slot (a d x : ℤ) : ℤ := (x - a) / d

theorem slot_mem {x : ℤ} (hd : 0 < d) (h0 : a ≤ x) (h1 : x ≤ a + L) : slot a d x ∈ Finset.Icc 0 (L / d) := by
  unfold slot
  rw [Finset.mem_Icc]
  constructor
  · exact Int.ediv_nonneg (by omega) (by omega)
  · exact Int.ediv_le_ediv hd (by omega)

/-- Events in one slot are less than a distance apart. -/
theorem slot_lt {x y : ℤ} (hd : 0 < d) (h : slot a d x = slot a d y) : y < x + d := by
  unfold slot at h
  have hx := Int.ediv_mul_le (x - a) (ne_of_gt hd)
  have hy := Int.lt_ediv_add_one_mul_self (y - a) hd
  rw [← h] at hy
  have hexpand : ((x - a) / d + 1) * d = (x - a) / d * d + d := by ring
  omega

theorem card_le (time : ι → ℤ) (a : ℤ) {S : Finset ι} (hd : 0 < d) (hL : 0 ≤ L)
    (hw : ∀ i ∈ S, a ≤ time i ∧ time i ≤ a + L)
    (hs : ∀ i ∈ S, ∀ j ∈ S, i ≠ j → time i + d ≤ time j ∨ time j + d ≤ time i) : (S.card : ℤ) ≤ L / d + 1 := by
  have hinj : Set.InjOn (fun i => slot a d (time i)) S := by
    intro i hi j hj hij
    by_contra hne
    rcases hs i hi j hj hne with h | h
    · exact absurd (slot_lt hd hij) (not_lt.2 h)
    · exact absurd (slot_lt hd hij.symm) (not_lt.2 h)
  have hcard := Finset.card_le_card_of_injOn _ (fun i hi => slot_mem hd (hw i hi).1 (hw i hi).2) hinj
  rw [Int.card_Icc] at hcard
  have hnonneg : 0 ≤ L / d := Int.ediv_nonneg hL (by omega)
  omega

/-- The same of a set of events. -/
theorem ncard_le (time : ι → ℤ) (a : ℤ) {S : Set ι} (hd : 0 < d) (hL : 0 ≤ L)
    (hw : ∀ i ∈ S, a ≤ time i ∧ time i ≤ a + L)
    (hs : ∀ i ∈ S, ∀ j ∈ S, i ≠ j → time i + d ≤ time j ∨ time j + d ≤ time i) : (S.ncard : ℤ) ≤ L / d + 1 := by
  by_cases hfin : S.Finite
  · have hmem : ∀ i ∈ hfin.toFinset, i ∈ S := fun i hi => (Set.Finite.mem_toFinset hfin).1 hi
    rw [Set.ncard_eq_toFinset_card S hfin]
    exact card_le time a hd hL (fun i hi => hw i (hmem i hi)) fun i hi j hj => hs i (hmem i hi) j (hmem j hj)
  · rw [Set.Infinite.ncard hfin]
    have := Int.ediv_nonneg hL (Int.le_of_lt hd)
    omega

end Spacing
