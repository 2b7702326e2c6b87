/-
The round function as a permutation of the eight-lane states: cubing is a bijection of this field and
the mixing layer is non-singular, so every sequence of rounds is a bijection, and each digest is that of
equally many full-width inputs.
-/
import Yaqeen.Air.Eval
import Yaqeen.Lib.SpNetwork

namespace Yaqeen.Air

open SpNetwork

/-! ## The layers of a round -/

/-- Three does not divide `M − 1`, so that every element has one cube root. -/
theorem cube_bijective : Function.Bijective fun x : BaseElement => x ^ 3 := by
  refine pow_bijective (by norm_num) ?_
  rw [Nat.card_zmod]
  norm_num [modulus]

theorem sbox_bijective : Function.Bijective (sbox : Lanes BaseElement → Lanes BaseElement) :=
  lanewise_bijective cube_bijective

/-- The mixing layer has no kernel: its eight equations sum to 11 times the sum of the lanes, and with
that zero each lane is −2 times its successor, hence 256 times itself. -/
theorem mix_kernel {c : Lanes BaseElement} (h : ∀ i, ∑ j, c j + c i + 2 * c (i + 1) = 0) (i : Fin 8) : c i = 0 := by
  have h11 : (11 : BaseElement) ≠ 0 := natCast_ne_zero (n := 11) (by norm_num) (by norm_num [modulus])
  have h255 : (255 : BaseElement) ≠ 0 := natCast_ne_zero (n := 255) (by norm_num) (by norm_num [modulus])
  have hsum : 11 * ∑ j, c j = 0 := by
    have hsucc : ∑ i : Fin 8, c (i + 1) = ∑ j, c j := Equiv.sum_comp (Equiv.addRight (1 : Fin 8)) c
    have hall : ∑ i : Fin 8, (∑ j, c j + c i + 2 * c (i + 1)) = 0 := Finset.sum_eq_zero fun i _ => h i
    rw [Finset.sum_add_distrib, Finset.sum_add_distrib, ← Finset.mul_sum, hsucc, Finset.sum_const, Finset.card_univ,
      Fintype.card_fin, nsmul_eq_mul] at hall
    push_cast at hall
    linear_combination hall
  have hzero : ∑ j, c j = 0 := (mul_eq_zero.1 hsum).resolve_left h11
  have hstep : ∀ i, c i = -2 * c (i + 1) := fun i => by
    linear_combination h i - hzero
  have hround : ∀ i : Fin 8, i + 1 + 1 + 1 + 1 + 1 + 1 + 1 + 1 = i := by decide
  have hself : c i = 256 * c i := by
    have hfour : ∀ i, c i = 16 * c (i + 1 + 1 + 1 + 1) := fun i => by
      linear_combination hstep i - 2 * hstep (i + 1) + 4 * hstep (i + 1 + 1) - 8 * hstep (i + 1 + 1 + 1)
    calc c i = 16 * c (i + 1 + 1 + 1 + 1) := hfour i
      _ = 16 * (16 * c (i + 1 + 1 + 1 + 1 + 1 + 1 + 1 + 1)) := by rw [← hfour (i + 1 + 1 + 1 + 1)]
      _ = 256 * c i := by rw [hround]; ring
  have h255c : 255 * c i = 0 := by linear_combination -hself
  exact (mul_eq_zero.1 h255c).resolve_left h255

theorem mix_bijective : Function.Bijective (mix : Lanes BaseElement → Lanes BaseElement) := by
  rw [← Finite.injective_iff_bijective]
  intro a b hab
  have hker : ∀ i, ∑ j, (a j - b j) + (a i - b i) + 2 * (a (i + 1) - b (i + 1)) = 0 := fun i => by
    have hi := congrFun hab i
    rw [mix_eq, mix_eq] at hi
    rw [Finset.sum_sub_distrib]
    linear_combination hi
  funext i
  exact sub_eq_zero.1 (mix_kernel (c := fun i => a i - b i) hker i)

theorem applyRound_bijective (rc : Lanes BaseElement) : Function.Bijective fun state => applyRound state rc := by
  have hadd : Function.Bijective fun (state : Lanes BaseElement) i => state i + rc i :=
    Function.Bijective.piMap fun i => (Equiv.addRight (rc i)).bijective
  exact mix_bijective.comp (sbox_bijective.comp hadd)

/-! ## The rounds of the hash -/

theorem runRounds_eq_foldl (state : Lanes BaseElement) : ∀ n, runRounds n state =
    ((List.range n).map fun r => roundConstants (Fin.ofNat 8 r)).foldl applyRound state
  | 0 => rfl
  | n + 1 => by
    rw [runRounds, runRounds_eq_foldl state n, List.range_succ, List.map_append, List.foldl_append]
    rfl

theorem runRounds_bijective (n : ℕ) : Function.Bijective (runRounds n) := by
  have h := foldl_bijective applyRound_bijective ((List.range n).map fun r => roundConstants (Fin.ofNat 8 r))
  have heq : runRounds n = fun state =>
      ((List.range n).map fun r => roundConstants (Fin.ofNat 8 r)).foldl applyRound state :=
    funext fun state => runRounds_eq_foldl state n
  rwa [heq]

theorem absorb_ofFn (state : Lanes BaseElement) : absorb (List.ofFn state) = state := by
  funext i
  unfold absorb
  rw [List.getD_eq_getElem?_getD, List.getElem?_ofFn, dif_pos i.isLt, Option.getD_some]

theorem ofFn_absorb {inputs : List BaseElement} (h : inputs.length = stateWidth) :
    List.ofFn (absorb inputs) = inputs := by
  apply List.ext_getElem?
  intro i
  rw [List.getElem?_ofFn]
  split
  · rename_i hi
    show some (inputs.getD i 0) = inputs[i]?
    rw [List.getD_eq_getElem?_getD, List.getElem?_eq_getElem (h ▸ hi), Option.getD_some]
  · rename_i hi
    rw [List.getElem?_eq_none (h ▸ not_lt.1 hi)]

/-- Full-width inputs are the states. -/
theorem full_width_image (P : Lanes BaseElement → Prop) :
    {inputs : List BaseElement | inputs.length = stateWidth ∧ P (absorb inputs)} = List.ofFn '' {state | P state} := by
  ext inputs
  constructor
  · rintro ⟨hlen, h⟩
    exact ⟨absorb inputs, h, ofFn_absorb hlen⟩
  · rintro ⟨state, h, rfl⟩
    refine ⟨List.length_ofFn, ?_⟩
    rw [absorb_ofFn]
    exact h

/-- One round permutes the eight-lane states whatever its constants, and so does any sequence of
rounds, the seven of the hash among them; each digest is that of `M^7` of the `M^8` inputs of full
width. -/
theorem round_is_permutation :
    (∀ rc : Lanes BaseElement, Function.Bijective fun state => applyRound state rc) ∧
    (∀ constants : List (Lanes BaseElement), Function.Bijective fun state => constants.foldl applyRound state) ∧
    Function.Bijective (runRounds (rounds - 1)) ∧
    {inputs : List BaseElement | inputs.length = stateWidth}.ncard = modulus ^ 8 ∧
    ∀ d, {inputs : List BaseElement | inputs.length = stateWidth ∧ hash inputs = d}.ncard = modulus ^ 7 := by
  refine ⟨applyRound_bijective, foldl_bijective applyRound_bijective, runRounds_bijective _, ?_, fun d => ?_⟩
  · have himage := full_width_image fun _ => True
    simp only [and_true] at himage
    rw [himage, Set.ofPred_true, Set.ncard_image_of_injective _ List.ofFn_injective, Set.ncard_univ,
      Nat.card_fun, Nat.card_fin, Nat.card_zmod]
  · have hset : {inputs : List BaseElement | inputs.length = stateWidth ∧ hash inputs = d} =
        {inputs | inputs.length = stateWidth ∧ runRounds 7 (absorb inputs) 0 = d} := by
      simp only [hash_def]
    have hcount : {state : Lanes BaseElement | runRounds 7 state 0 = d}.ncard = Nat.card BaseElement ^ 7 :=
      ncard_first_of_bijective (runRounds_bijective 7) d
    rw [hset, full_width_image fun state => runRounds 7 state 0 = d,
      Set.ncard_image_of_injective _ List.ofFn_injective, hcount, Nat.card_zmod]

end Yaqeen.Air
