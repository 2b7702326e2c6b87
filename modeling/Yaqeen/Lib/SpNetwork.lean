/-
Substitution–permutation networks over a finite field: power S-boxes, S-boxes applied to every lane,
rounds in sequence, and how many states a bijection sends to a state with a given first lane.
-/
import Mathlib

namespace SpNetwork

/-! ## S-boxes -/

/-- A power map permutes a finite field when the exponent is coprime to the order of the units. -/
theorem pow_bijective {K : Type} [Field K] [Finite K] {n : ℕ} (hn : n ≠ 0) (h : (Nat.card K - 1).Coprime n) :
    Function.Bijective fun x : K => x ^ n := by
  rw [← Finite.injective_iff_bijective]
  intro x y hxy
  simp only at hxy
  have hunits : (Nat.card Kˣ).Coprime n := by rwa [Nat.card_units]
  by_cases hx : x = 0
  · rw [hx, zero_pow hn] at hxy
    rw [hx, pow_eq_zero_iff hn |>.1 hxy.symm]
  by_cases hy : y = 0
  · rw [hy, zero_pow hn] at hxy
    exact absurd ((pow_eq_zero_iff hn).1 hxy) hx
  have hpow : Units.mk0 x hx ^ n = Units.mk0 y hy ^ n := Units.ext hxy
  exact congrArg Units.val (hunits.pow_left_bijective.injective hpow)

theorem lanewise_bijective {ι K : Type} {f : K → K} (h : Function.Bijective f) :
    Function.Bijective fun (state : ι → K) i => f (state i) :=
  Function.Bijective.piMap fun _ => h

/-! ## Rounds -/

/-- Rounds that permute the states permute them in any sequence. -/
theorem foldl_bijective {α β : Type} {round : α → β → α} (h : ∀ b, Function.Bijective fun a => round a b) :
    ∀ bs : List β, Function.Bijective fun a => bs.foldl round a
  | [] => Function.bijective_id
  | b :: bs => (foldl_bijective h bs).comp (h b)

/-! ## Digests -/

/-- The states with a given first lane. -/
theorem ncard_first {K : Type} [Finite K] (n : ℕ) (d : K) :
    {state : Fin (n + 1) → K | state 0 = d}.ncard = Nat.card K ^ n := by
  let extend (rest : Fin n → K) : Fin (n + 1) → K := Fin.cons d rest
  have hinj : Function.Injective extend := @Fin.cons_right_injective n (fun _ => K) d
  have himage : {state : Fin (n + 1) → K | state 0 = d} = extend '' Set.univ := by
    ext state
    constructor
    · rintro rfl
      exact ⟨Fin.tail state, Set.mem_univ _, Fin.cons_self_tail state⟩
    · rintro ⟨rest, -, rfl⟩
      rfl
  rw [himage, Set.ncard_image_of_injective _ hinj, Set.ncard_univ, Nat.card_fun, Nat.card_fin]

/-- A permutation of the states sends equally many of them to each first lane. -/
theorem ncard_first_of_bijective {K : Type} [Finite K] {n : ℕ} {f : (Fin (n + 1) → K) → Fin (n + 1) → K}
    (hf : Function.Bijective f) (d : K) : {state | f state 0 = d}.ncard = Nat.card K ^ n := by
  have himage : f '' {state | f state 0 = d} = {state | state 0 = d} := by
    ext state
    constructor
    · rintro ⟨pre, h, rfl⟩
      exact h
    · intro h
      obtain ⟨pre, rfl⟩ := hf.surjective state
      exact ⟨pre, h, rfl⟩
  rw [← ncard_first n d, ← himage, Set.ncard_image_of_injective _ hf.injective]

end SpNetwork
