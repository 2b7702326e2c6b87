/-
The base field of the circuit: Winterfell's `f128`, the integers modulo
`M = 2^128 − 45·2^40 + 1`. `M` is prime (Lucas's test from the factorization of `M − 1`), and a
`u64` embeds in the field without wrapping.
-/
import Mathlib

namespace Yaqeen.Air

/-- The modulus `M` of the field. -/
def modulus : ℕ := 340282366920938463463374557953744961537

example : modulus = 2 ^ 128 - 45 * 2 ^ 40 + 1 := by decide

instance : NeZero modulus := ⟨by norm_num [modulus]⟩

/-- A field element of `f128`. -/
abbrev BaseElement : Type := ZMod modulus

/-- `BaseElement::new`: the residue of a `u128` modulo `M`. -/
def BaseElement.new (n : ℕ) : BaseElement := (n : ZMod modulus)

/-! ## Primality -/

/-- Lucas's test for `p`, with `p − 1` given by its prime factors. -/
theorem prime_of_lucas {p : ℕ} (a : ZMod p) (factors : List ℕ) (hprime : ∀ q ∈ factors, q.Prime)
    (hprod : p - 1 = factors.prod) (h1 : a ^ (p - 1) = 1) (hne : ∀ q ∈ factors, a ^ ((p - 1) / q) ≠ 1) :
    p.Prime := by
  refine lucas_primality p a h1 fun q hq hdvd => hne q ?_
  rw [hprod] at hdvd
  obtain ⟨r, hr, hqr⟩ := (Nat.Prime.prime hq).dvd_prod_iff.1 hdvd
  rwa [(Nat.prime_dvd_prime_iff_eq hq (hprime r hr)).1 hqr]

theorem prime_18053749339 : Nat.Prime 18053749339 := by
  refine prime_of_lucas 3 [2, 3, 157, 19165339] ?_ (by norm_num) ?_ ?_
  · norm_num
  · norm_num; reduce_mod_char
  · simp only [List.forall_mem_cons, List.not_mem_nil, false_implies, implies_true, and_true]
    norm_num
    refine ⟨?_, ?_, ?_, ?_⟩ <;> reduce_mod_char <;> decide

theorem modulus_prime : modulus.Prime := by
  refine prime_of_lucas (p := 340282366920938463463374557953744961537) 3
    (List.replicate 40 2 ++ [29, 181, 286619, 11394379, 18053749339]) ?_ (by norm_num) ?_ ?_
  · have h2 : ∀ q ∈ List.replicate 40 2, Nat.Prime q := fun q hq => by
      rw [List.eq_of_mem_replicate hq]; exact Nat.prime_two
    refine List.forall_mem_append.2 ⟨h2, ?_⟩
    simp only [List.forall_mem_cons, List.not_mem_nil, false_implies, implies_true, and_true]
    exact ⟨by norm_num, by norm_num, by norm_num, by norm_num, prime_18053749339⟩
  · norm_num; reduce_mod_char
  · have h2 : ∀ q ∈ List.replicate 40 2, (3 : ZMod 340282366920938463463374557953744961537) ^
        ((340282366920938463463374557953744961537 - 1) / q) ≠ 1 := fun q hq => by
      rw [List.eq_of_mem_replicate hq]
      norm_num
      reduce_mod_char
      decide
    refine List.forall_mem_append.2 ⟨h2, ?_⟩
    simp only [List.forall_mem_cons, List.not_mem_nil, false_implies, implies_true, and_true]
    norm_num
    refine ⟨?_, ?_, ?_, ?_, ?_⟩ <;> reduce_mod_char <;> decide

instance : Fact modulus.Prime := ⟨modulus_prime⟩

/-! ## Embedding machine integers -/

theorem val_new {n : ℕ} (h : n < modulus) : (BaseElement.new n).val = n := ZMod.val_natCast_of_lt h

theorem new_inj {m n : ℕ} (hm : m < modulus) (hn : n < modulus) (h : BaseElement.new m = BaseElement.new n) :
    m = n := by
  rw [← val_new hm, ← val_new hn, h]

theorem natCast_ne_zero {n : ℕ} (h0 : n ≠ 0) (hn : n < modulus) : (n : BaseElement) ≠ 0 := by
  rw [ne_eq, ZMod.natCast_eq_zero_iff]
  exact Nat.not_dvd_of_pos_of_lt (Nat.pos_of_ne_zero h0) hn

theorem u64_lt_modulus (n : UInt64) : n.toNat < modulus :=
  lt_trans n.toNat_lt (by norm_num [modulus])

/-- Distinct `u64` values are distinct field elements. -/
theorem new_u64_inj {m n : UInt64} (h : BaseElement.new m.toNat = BaseElement.new n.toNat) : m = n :=
  UInt64.toNat_inj.1 (new_inj (u64_lt_modulus m) (u64_lt_modulus n) h)

end Yaqeen.Air
