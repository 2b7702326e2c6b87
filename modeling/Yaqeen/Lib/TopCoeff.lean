/-
Polynomials with a degree bound and the coefficient at that bound: how the pair goes through sums,
products, powers and substitutions, so that the degree of an expression and its leading coefficient are
read off together.
-/
import Mathlib

namespace TopCoeff

open Polynomial

section

variable {R : Type} [CommRing R]

/-- Degree at most `n`, with `a` as the coefficient of `X ^ n`. -/
structure Top (p : R[X]) (n : ℕ) (a : R) : Prop where
  natDegree_le : p.natDegree ≤ n
  coeff_eq : p.coeff n = a

variable {p q : R[X]} {m n : ℕ} {a b : R}

theorem Top.of_natDegree_le (h : p.natDegree ≤ n) : Top p n (p.coeff n) := ⟨h, rfl⟩

/-- The bound is the degree when the coefficient is not zero. -/
theorem Top.natDegree_eq (h : Top p n a) (ha : a ≠ 0) : p.natDegree = n :=
  natDegree_eq_of_le_of_coeff_ne_zero h.natDegree_le (h.coeff_eq ▸ ha)

/-- Above its bound a polynomial has coefficient zero. -/
theorem Top.lower (h : Top p m a) (hmn : m < n) : Top p n 0 :=
  ⟨h.natDegree_le.trans hmn.le, coeff_eq_zero_of_natDegree_lt (h.natDegree_le.trans_lt hmn)⟩

theorem Top.congr (h : Top p n a) (hab : a = b) : Top p n b := hab ▸ h

theorem Top.const (c : R) : Top (C c) 0 c := ⟨(natDegree_C c).le, coeff_C_zero⟩

theorem Top.zero (n : ℕ) : Top (0 : R[X]) n 0 := ⟨by rw [natDegree_zero]; exact Nat.zero_le n, coeff_zero n⟩

theorem Top.one (hn : 0 < n) : Top (1 : R[X]) n 0 := by
  rw [← C_1]
  exact (Top.const 1).lower hn

theorem Top.monomial (n : ℕ) (c : R) : Top (C c * X ^ n) n c :=
  ⟨natDegree_C_mul_X_pow_le c n, by rw [coeff_C_mul, coeff_X_pow_self, mul_one]⟩

theorem Top.add (hp : Top p n a) (hq : Top q n b) : Top (p + q) n (a + b) :=
  ⟨natDegree_add_le_of_degree_le hp.natDegree_le hq.natDegree_le, by rw [coeff_add, hp.coeff_eq, hq.coeff_eq]⟩

theorem Top.sub (hp : Top p n a) (hq : Top q n b) : Top (p - q) n (a - b) :=
  ⟨natDegree_sub_le_of_le hp.natDegree_le hq.natDegree_le |>.trans (max_self n).le,
    by rw [coeff_sub, hp.coeff_eq, hq.coeff_eq]⟩

theorem Top.mul (hp : Top p m a) (hq : Top q n b) : Top (p * q) (m + n) (a * b) :=
  ⟨natDegree_mul_le_of_le hp.natDegree_le hq.natDegree_le,
    by rw [coeff_mul_add_eq_of_natDegree_le hp.natDegree_le hq.natDegree_le, hp.coeff_eq, hq.coeff_eq]⟩

theorem Top.mul_const (hp : Top p n a) (c : R) : Top (p * C c) n (a * c) := hp.mul (Top.const c)

theorem Top.pow (hp : Top p n a) (k : ℕ) : Top (p ^ k) (k * n) (a ^ k) := by
  refine ⟨natDegree_pow_le_of_le k hp.natDegree_le, ?_⟩
  rw [coeff_pow_of_natDegree_le hp.natDegree_le, hp.coeff_eq]

theorem Top.sum {ι : Type} (s : Finset ι) {f : ι → R[X]} {c : ι → R} (h : ∀ i ∈ s, Top (f i) n (c i)) :
    Top (∑ i ∈ s, f i) n (∑ i ∈ s, c i) :=
  ⟨natDegree_sum_le_of_forall_le s f fun i hi => (h i hi).natDegree_le,
    by rw [finsetSum_coeff]; exact Finset.sum_congr rfl fun i hi => (h i hi).coeff_eq⟩

/-! ## Substitutions -/

/-- Scaling the variable scales the coefficient by its power. -/
theorem Top.comp_scale (hp : Top p n a) (g : R) : Top (p.comp (C g * X)) n (g ^ n * a) := by
  constructor
  · calc (p.comp (C g * X)).natDegree ≤ p.natDegree * (C g * X).natDegree := natDegree_comp_le
      _ ≤ n * 1 := Nat.mul_le_mul hp.natDegree_le ((natDegree_C_mul_le g X).trans natDegree_X_le)
      _ = n := Nat.mul_one n
  · rw [comp_C_mul_X_coeff, hp.coeff_eq, mul_comm]

/-- Raising the variable to a power stretches the bound. -/
theorem Top.comp_pow (hp : Top p n a) (hm : 0 < m) : Top (p.comp (X ^ m)) (n * m) a := by
  rw [← expand_eq_comp_X_pow]
  constructor
  · rw [natDegree_expand]
    exact Nat.mul_le_mul_right m hp.natDegree_le
  · rw [coeff_expand_mul hm, hp.coeff_eq]

end

/-! ## Interpolants -/

section

variable {F : Type} [Field F] {n : ℕ} {v : Fin (n + 1) → F}

/-- An interpolant on `n + 1` nodes has degree at most `n`. -/
theorem natDegree_interpolate_le (hv : Function.Injective v) (r : Fin (n + 1) → F) :
    (Lagrange.interpolate Finset.univ v r).natDegree ≤ n := by
  apply natDegree_le_of_degree_le
  have h := Lagrange.degree_interpolate_le (s := Finset.univ) r hv.injOn
  rwa [Finset.card_univ, Fintype.card_fin, Nat.add_sub_cancel] at h

/-- The interpolant of the indicator of one node has degree exactly `n`. -/
theorem top_indicator (hv : Function.Injective v) (i : Fin (n + 1)) {r : Fin (n + 1) → F}
    (hr : ∀ j, r j = if j = i then 1 else 0) :
    ∃ a, a ≠ 0 ∧ Top (Lagrange.interpolate Finset.univ v r) n a := by
  have hbasis : Lagrange.interpolate Finset.univ v r = Lagrange.basis Finset.univ v i := by
    rw [Lagrange.interpolate_apply, Finset.sum_eq_single i]
    · rw [hr, if_pos rfl, map_one, one_mul]
    · intro j _ hj
      rw [hr, if_neg hj, map_zero, zero_mul]
    · intro h
      exact absurd (Finset.mem_univ i) h
  have hdeg : (Lagrange.basis Finset.univ v i).natDegree = n := by
    rw [Lagrange.natDegree_basis hv.injOn (Finset.mem_univ i), Finset.card_univ, Fintype.card_fin, Nat.add_sub_cancel]
  refine ⟨(Lagrange.basis Finset.univ v i).leadingCoeff, ?_, ?_⟩
  · rw [leadingCoeff_ne_zero]
    exact Lagrange.basis_ne_zero hv.injOn (Finset.mem_univ i)
  · rw [hbasis, leadingCoeff, hdeg]
    exact Top.of_natDegree_le hdeg.le

end

end TopCoeff
