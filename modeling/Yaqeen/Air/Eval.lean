/-
Evaluation of the hash on concrete inputs: the permutation on lists of residues, where a round is
plain arithmetic on natural numbers, and its agreement with the permutation on field elements.
-/
import Yaqeen.Air.Hash

namespace Yaqeen.Air

def cubeLane (r lane a : ℕ) : ℕ :=
  let drawn := 2 * (8 * r + lane)
  let b := a + ((draw (drawn + 1)).toNat <<< 64 ||| (draw (drawn + 2)).toNat)
  b * b % modulus * b % modulus

/-- The eight cubed lanes of a round. -/
def cubeList (r : ℕ) (state : List ℕ) : List ℕ := (List.range 8).map fun lane => cubeLane r lane (state.getD lane 0)

/-- The mixing layer: the sum of the lanes, once more the lane itself and twice its successor. -/
def mixList (b : List ℕ) : List ℕ :=
  (List.range 8).map fun i => (b.sum + b.getD i 0 + 2 * b.getD ((i + 1) % 8) 0) % modulus

def roundsList : ℕ → List ℕ → List ℕ
  | 0, state => state
  | n + 1, state => mixList (cubeList n (roundsList n state))

def hashList (inputs : List ℕ) : ℕ := (roundsList 7 inputs).getD 0 0

/-- The lanes a list of naturals stands for. -/
def lanesOf (state : List ℕ) : Lanes BaseElement := fun i => BaseElement.new (state.getD i 0)

theorem new_mod (n : ℕ) : BaseElement.new (n % modulus) = BaseElement.new n := ZMod.natCast_mod n modulus

theorem mix_eq (b : Lanes BaseElement) (i : Fin 8) : mix b i = ∑ j, b j + b i + 2 * b (i + 1) := by
  unfold mix mixCoeffs BaseElement.new
  rw [Fin.sum_univ_eight, Fin.sum_univ_eight]
  fin_cases i <;> simp <;> ring

theorem getD_map_range (f : ℕ → ℕ) (i : Fin 8) : ((List.range 8).map f).getD i 0 = f i := by
  fin_cases i <;> rfl

theorem new_cubeLane (r lane : Fin 8) (a : ℕ) :
    BaseElement.new (cubeLane r lane a) = (BaseElement.new a + roundConstants r lane) ^ 3 := by
  unfold cubeLane roundConstants
  simp only [new_mod]
  unfold BaseElement.new
  push_cast [ZMod.natCast_mod]
  ring

theorem sum_new (f : ℕ → ℕ) : BaseElement.new ((List.range 8).map f).sum = ∑ j : Fin 8, BaseElement.new (f j) := by
  unfold BaseElement.new
  rw [Fin.sum_univ_eight]
  simp [List.range_succ, add_assoc]

theorem applyRound_lanesOf (r : Fin 8) (state : List ℕ) :
    applyRound (lanesOf state) (roundConstants r) = lanesOf (mixList (cubeList r state)) := by
  have hb : sbox (fun i => lanesOf state i + roundConstants r i) = lanesOf (cubeList r state) := by
    funext i
    unfold sbox lanesOf cubeList
    rw [getD_map_range, new_cubeLane]
  funext i
  unfold applyRound
  rw [hb, mix_eq]
  have hsucc : ((i + 1 : Fin 8) : ℕ) = (i.val + 1) % 8 := by revert i; decide
  unfold lanesOf mixList
  rw [getD_map_range, new_mod, hsucc]
  have hsum : BaseElement.new (cubeList r state).sum = ∑ j : Fin 8, BaseElement.new ((cubeList r state).getD j 0) := by
    unfold cubeList
    rw [sum_new]
    exact Finset.sum_congr rfl fun j _ => by rw [getD_map_range]
  rw [← hsum]
  unfold BaseElement.new
  push_cast
  ring

theorem runRounds_lanesOf (state : List ℕ) : ∀ n ≤ 8, runRounds n (lanesOf state) = lanesOf (roundsList n state)
  | 0, _ => rfl
  | n + 1, hn => by
    rw [runRounds, runRounds_lanesOf state n (by omega), applyRound_lanesOf]
    rw [roundsList, Fin.val_ofNat, Nat.mod_eq_of_lt (by omega)]

/-- The hash of field images of naturals is the field image of the list evaluation. -/
theorem hash_eval (inputs : List ℕ) : hash (inputs.map BaseElement.new) = BaseElement.new (hashList inputs) := by
  have habs : absorb (inputs.map BaseElement.new) = lanesOf inputs := by
    funext i
    unfold absorb lanesOf
    rw [List.getD_eq_getElem?_getD, List.getD_eq_getElem?_getD, List.getElem?_map]
    cases inputs[i.val]? with
    | none => exact Nat.cast_zero.symm
    | some x => rfl
  unfold hash
  rw [habs, show rounds - 1 = 7 from rfl, runRounds_lanesOf inputs 7 (by omega)]
  rfl

theorem nodeHash_eval (a b : ℕ) : nodeHash (BaseElement.new a) (BaseElement.new b) = BaseElement.new (hashList [4, a, b]) :=
  hash_eval [4, a, b]

/-- The hash does not collide on inputs with distinct evaluations. -/
theorem hash_injOn {inputs : List (List ℕ)} (h : (inputs.map fun n => hashList n % modulus).Nodup) :
    {x | ∃ n ∈ inputs, x = n.map BaseElement.new}.InjOn hash := by
  rintro _ ⟨n, hn, rfl⟩ _ ⟨m, hm, rfl⟩ heq
  rw [hash_eval, hash_eval] at heq
  have := (ZMod.natCast_eq_natCast_iff' _ _ _).1 heq
  rw [List.inj_on_of_nodup_map h hn hm this]

example : hashList [2, 0, 0] = 134605940506656811074142373887474775409 := by decide +kernel

end Yaqeen.Air
