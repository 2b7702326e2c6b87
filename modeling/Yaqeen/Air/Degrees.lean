/-
The degrees the AIR declares for its transition constraints, against the constraints read over
polynomials: the trace columns as polynomials of degree at most 255, the next row as their values at
`gX`, and each periodic column as its interpolant on the eighth roots of unity, at `X^32`. The
polynomials vanish where the transitions hold, and each declared degree bounds the polynomial of its
constraint and is attained.
-/
import Yaqeen.Air.Eval
import Yaqeen.Air.Title
import Yaqeen.Lib.TopCoeff

namespace Yaqeen.Air

open Polynomial TopCoeff

/-! ## Declared degrees -/

structure TransitionConstraintDegree where
  base : ℕ
  cycles : List ℕ
  deriving DecidableEq

namespace TransitionConstraintDegree

def new (degree : ℕ) : TransitionConstraintDegree := ⟨degree, []⟩

def withCycles (base : ℕ) (cycles : List ℕ) : TransitionConstraintDegree := ⟨base, cycles⟩

/-- A trace column counts its length less one, a periodic column the share of its cycle length less one. -/
def evaluationDegree (d : TransitionConstraintDegree) (traceLength : ℕ) : ℕ :=
  d.base * (traceLength - 1) + (d.cycles.map fun c => traceLength / c * (c - 1)).sum

end TransitionConstraintDegree

abbrev rangeBitCount : ℕ := 32

open TransitionConstraintDegree in
/-- The degrees of `TitleAir::new`, in the order of the constraints. -/
def degrees : List TransitionConstraintDegree :=
  List.replicate stateWidth (withCycles 3 [rounds]) ++
  [new 1, -- held_secret copy
   new 1] ++ -- held_pid copy
  List.replicate 4 (withCycles 2 [rounds]) ++
  [withCycles 1 [rounds], -- one-hot sum
   withCycles 3 [rounds]] ++ -- merkle-bit boolean
  List.replicate rangeBitCount (new 2) ++
  [withCycles 2 [rounds]] -- range weighted-sum

/-! ## Constraints over polynomials -/

/-- The columns at the row after: `f(gX)` for each column `f`. -/
noncomputable def nextRow (g : BaseElement) (trace : Row BaseElement[X]) : Row BaseElement[X] := fun c =>
  (trace c).comp (C g * X)

/-- The interpolant of a periodic column on the eighth roots of unity, at `X^32`. -/
noncomputable def periodicPoly (g : BaseElement) (col : Fin 10) : BaseElement[X] :=
  (Lagrange.interpolate Finset.univ (fun r : Fin 8 => (g ^ jobCount) ^ r.val) (getPeriodicColumnValues col)).comp
    (X ^ jobCount)

/-- The polynomials of the 49 transition constraints. -/
noncomputable def transitionPoly (pubInputs : PublicInputs) (g : BaseElement) (trace : Row BaseElement[X]) :
    Fin 49 → BaseElement[X] :=
  evaluateTransition pubInputs trace (nextRow g trace) (periodicPoly g)

/-- The rows of the values of the columns on the trace domain. -/
noncomputable def valueTable (g : BaseElement) (trace : Row BaseElement[X]) : TraceTable := fun r c =>
  (trace c).eval (g ^ r.val)

/-! ## Their values on the trace domain -/

section

variable {E E' : Type} [CommRing E] [Algebra BaseElement E] [CommRing E'] [Algebra BaseElement E']
  (φ : E →ₐ[BaseElement] E')

theorem map_applyRound (state rc : Lanes E) (i : Fin 8) :
    φ (applyRound state rc i) = applyRound (fun j => φ (state j)) (fun j => φ (rc j)) i := by
  unfold applyRound mix sbox
  rw [map_sum]
  refine Finset.sum_congr rfl fun j _ => ?_
  rw [map_mul, map_pow, map_add, AlgHom.commutes]

theorem map_boundary (cur nxt : Row E) (i : Fin 8) :
    φ (boundary cur nxt i) = boundary (fun c => φ (cur c)) (fun c => φ (nxt c)) i := by
  unfold boundary
  fin_cases i <;>
    simp only [Fin.zero_eta, Fin.mk_one, Fin.reduceFinMk, Matrix.cons_val, map_add, map_sub, map_mul, map_one, map_zero,
      AlgHom.commutes]

theorem map_weighted (cur : Row E) : φ (weighted cur) = weighted fun c => φ (cur c) := by
  unfold weighted
  rw [map_sum]
  refine Finset.sum_congr rfl fun j _ => ?_
  rw [map_mul, AlgHom.commutes]

/-- The constraints commute with homomorphisms. -/
theorem map_evaluateTransition (pubInputs : PublicInputs) (cur nxt : Row E) (per : Fin 10 → E) (k : Fin 49) :
    φ (evaluateTransition pubInputs cur nxt per k) =
      evaluateTransition pubInputs (fun c => φ (cur c)) (fun c => φ (nxt c)) (fun c => φ (per c)) k := by
  have hbit : ∀ c, φ (per 8 * (cur c * cur c - cur c)) =
      φ (per 8) * (φ (cur c) * φ (cur c) - φ (cur c)) := fun c => by
    rw [map_mul, map_sub, map_mul]
  obtain ⟨i, rfl⟩ | ⟨i, rfl⟩ | rfl | rfl | rfl | rfl | rfl | rfl | rfl | rfl | rfl := constraint_cases k
  · rw [evaluateTransition_lane, evaluateTransition_lane]
    simp only [map_add, map_sub, map_mul, map_one, map_applyRound, map_boundary]
  · rw [evaluateTransition_rangeBit, evaluateTransition_rangeBit, map_sub, map_mul]
  · exact map_sub φ (nxt heldSecret) (cur heldSecret)
  · exact map_sub φ (nxt heldPid) (cur heldPid)
  · exact hbit tOwner
  · exact hbit tLeaf
  · exact hbit tMerkle
  · exact hbit tNullifier
  · show φ (per 8 * (cur tOwner + cur tLeaf + cur tMerkle + cur tNullifier - 1)) = _
    simp only [map_add, map_sub, map_mul, map_one]
    rfl
  · show φ (per 8 * cur tMerkle * (cur auxB * cur auxB - cur auxB)) = _
    simp only [map_sub, map_mul]
    rfl
  · show φ (per 8 * cur tLeaf * (weighted cur - (cur auxD - algebraMap BaseElement E pubInputs.currentTimestamp - 1))) = _
    simp only [map_sub, map_mul, map_one, map_weighted, AlgHom.commutes]
    rfl

end

section

variable {g : BaseElement} (hg : IsPrimitiveRoot g traceLength)

include hg

/-- The eighth roots of unity are distinct. -/
theorem nodes_injective : Function.Injective fun r : Fin 8 => (g ^ jobCount) ^ r.val := by
  have h8 : IsPrimitiveRoot (g ^ jobCount) rounds := hg.pow (by norm_num) (Nat.mul_comm rounds jobCount)
  intro r r' h
  exact Fin.ext (h8.pow_inj r.isLt r'.isLt h)

/-- The values of a periodic polynomial on the trace domain are those of its column. -/
theorem eval_periodicPoly (col : Fin 10) (i : ℕ) : (periodicPoly g col).eval (g ^ i) = periodicValues i col := by
  have hone : (g ^ jobCount) ^ rounds = 1 := by rw [← pow_mul, hg.pow_eq_one]
  have hnode : (g ^ i) ^ jobCount = (g ^ jobCount) ^ (Fin.ofNat 8 i).val := by
    rw [← pow_mul, Nat.mul_comm, pow_mul, Fin.val_ofNat, pow_eq_pow_mod i hone]
  unfold periodicPoly
  rw [eval_comp, eval_pow, eval_X, hnode,
    Lagrange.eval_interpolate_at_node (getPeriodicColumnValues col) (nodes_injective hg).injOn (Finset.mem_univ _)]
  rfl

/-- At `g^i` the polynomial of a constraint has the value of the constraint on the rows `i` and `i + 1`. -/
theorem eval_transitionPoly (pubInputs : PublicInputs) (trace : Row BaseElement[X]) (i : ℕ) (k : Fin 49) :
    (transitionPoly pubInputs g trace k).eval (g ^ i) =
      evaluateTransition pubInputs (fun c => (trace c).eval (g ^ i)) (fun c => (trace c).eval (g ^ (i + 1)))
        (periodicValues i) k := by
  have hnext : ∀ c, (nextRow g trace c).eval (g ^ i) = (trace c).eval (g ^ (i + 1)) := fun c => by
    unfold nextRow
    rw [eval_comp, eval_mul, eval_C, eval_X, pow_succ']
  have h := map_evaluateTransition (aeval (g ^ i)) pubInputs trace (nextRow g trace) (periodicPoly g) k
  simp only [coe_aeval_eq_eval, hnext, eval_periodicPoly hg] at h
  exact h

/-- The table of the values of the columns satisfies a transition exactly where the polynomials of all the
constraints vanish. -/
theorem transitionHolds_iff_vanish (pubInputs : PublicInputs) (trace : Row BaseElement[X]) (i : ℕ) :
    TransitionHolds pubInputs (valueTable g trace) i ↔ ∀ k, (transitionPoly pubInputs g trace k).eval (g ^ i) = 0 := by
  have hrow : ∀ j, (valueTable g trace).row j = fun c => (trace c).eval (g ^ j) := fun j => by
    funext c
    show (trace c).eval (g ^ (j % traceLength)) = _
    rw [← pow_eq_pow_mod j hg.pow_eq_one]
  simp only [TransitionHolds, hrow, eval_transitionPoly hg]

end

/-! ## Leading coefficients -/

section

variable {g : BaseElement} (hg : IsPrimitiveRoot g traceLength)

include hg

theorem top_roundConstant (i : Fin 8) : Top (periodicPoly g (rcColumn i)) 255 0 := by
  have h := Top.of_natDegree_le (natDegree_interpolate_le (nodes_injective hg) (getPeriodicColumnValues (rcColumn i)))
  exact (h.comp_pow (m := jobCount) (by norm_num)).lower (by norm_num)

/-- The two gates have the full degree of an interpolant. -/
theorem top_gate (col : Fin 10) (row : Fin 8) (h : ∀ r, getPeriodicColumnValues col r = if r = row then 1 else 0) :
    ∃ a, a ≠ 0 ∧ Top (periodicPoly g col) 224 a := by
  obtain ⟨a, ha, htop⟩ := top_indicator (nodes_injective hg) row h
  exact ⟨a, ha, htop.comp_pow (m := jobCount) (by norm_num)⟩

theorem top_isFirst : ∃ a, a ≠ 0 ∧ Top (periodicPoly g 8) 224 a :=
  top_gate hg 8 0 (by decide)

theorem top_isLast : ∃ a, a ≠ 0 ∧ Top (periodicPoly g 9) 224 a :=
  top_gate hg 9 7 (by decide)

end

/-- The coefficients of the boundary formula at degree 765, which it has where it selects the children of
a Merkle step. -/
def boundaryLead (cur nxt : Row BaseElement) : Lanes BaseElement :=
  ![0,
    nxt tMerkle * (nxt auxB * nxt auxA - nxt auxB * cur s0),
    nxt tMerkle * (nxt auxB * cur s0 - nxt auxB * nxt auxA),
    0, 0, 0, 0, 0]

section

variable {cur nxt : Row BaseElement[X]} {a b : Row BaseElement} (ha : ∀ c, Top (cur c) 255 (a c))

include ha

/-- The leading coefficients of a round are the mixed cubes of those of the lanes. -/
theorem top_applyRound {rc : Lanes BaseElement[X]} (hrc : ∀ i, Top (rc i) 255 0) (i : Fin 8) :
    Top (applyRound (fun j => cur (stateCol j)) rc i) 765 (mix (sbox fun j => a (stateCol j)) i) := by
  have hlane : ∀ j, Top ((cur (stateCol j) + rc j) ^ 3) 765 (a (stateCol j) ^ 3) := fun j =>
    (((ha (stateCol j)).add (hrc j)).pow 3).congr (by rw [add_zero])
  unfold applyRound mix sbox
  exact Top.sum Finset.univ fun j _ => (hlane (i + j)).mul_const _

theorem top_weighted : Top (weighted cur) 255 (weighted a) := by
  unfold weighted
  exact Top.sum Finset.univ fun i _ => (ha (rcBit i)).mul_const _

variable (hb : ∀ c, Top (nxt c) 255 (b c))

include hb

theorem top_boundary (i : Fin 8) : Top (boundary cur nxt i) 765 (boundaryLead a b i) := by
  have hconst : ∀ c d, Top (nxt c * algebraMap BaseElement BaseElement[X] d) 765 0 := fun c d =>
    ((hb c).mul_const d).lower (by norm_num)
  have hcur : ∀ c d, Top (nxt c * cur d) 765 0 := fun c d => ((hb c).mul (ha d)).lower (by norm_num)
  have hnxt : ∀ c d, Top (nxt c * nxt d) 765 0 := fun c d => ((hb c).mul (hb d)).lower (by norm_num)
  have hnot : Top (1 - nxt auxB) 255 (-b auxB) := ((Top.one (by norm_num)).sub (hb auxB)).congr (zero_sub _)
  have hleft : Top (nxt auxB * nxt auxA + (1 - nxt auxB) * cur s0) 510 (b auxB * b auxA - b auxB * a s0) :=
    (((hb auxB).mul (hb auxA)).add (hnot.mul (ha s0))).congr (by ring)
  have hright : Top (nxt auxB * cur s0 + (1 - nxt auxB) * nxt auxA) 510 (b auxB * a s0 - b auxB * b auxA) :=
    (((hb auxB).mul (ha s0)).add (hnot.mul (hb auxA))).congr (by ring)
  fin_cases i
  · exact ((((hconst _ _).add (hconst _ _)).add (hconst _ _)).add (hconst _ _)).congr (by simp [boundaryLead])
  · exact ((((hcur _ _).add (hnxt _ _)).add ((hb tMerkle).mul hleft)).add (hcur _ _)).congr (by simp [boundaryLead])
  · exact ((((hcur _ _).add (hcur _ _)).add ((hb tMerkle).mul hright)).add (hcur _ _)).congr (by simp [boundaryLead])
  · exact ((hnxt _ _).add (hnxt _ _)).congr (by simp [boundaryLead])
  · exact ((hnxt _ _).add (hnxt _ _)).congr (by simp [boundaryLead])
  · exact hnxt _ _
  · exact Top.zero 765
  · exact Top.zero 765

end

/-! ## Exactness -/

/-- A degree bounds the polynomial of a constraint over every trace, and some trace attains it. -/
structure DegreeExact (pubInputs : PublicInputs) (g : BaseElement) (k : Fin 49) (n : ℕ) : Prop where
  bound : ∀ trace : Row BaseElement[X], (∀ c, (trace c).natDegree ≤ traceLength - 1) →
    (transitionPoly pubInputs g trace k).natDegree ≤ n
  attained : ∃ trace : Row BaseElement[X], (∀ c, (trace c).natDegree ≤ traceLength - 1) ∧
    (transitionPoly pubInputs g trace k).natDegree = n

/-- A degree is exact when the coefficient there is a function of the leading coefficients of the columns
that does not vanish somewhere. -/
theorem DegreeExact.of_top {pubInputs : PublicInputs} {g : BaseElement} {k : Fin 49} {n : ℕ}
    (lead : Row BaseElement → BaseElement)
    (h : ∀ trace a, (∀ c, Top (trace c) 255 (a c)) → Top (transitionPoly pubInputs g trace k) n (lead a))
    (a : Row BaseElement) (ha : lead a ≠ 0) : DegreeExact pubInputs g k n := by
  constructor
  · intro trace htrace
    exact (h trace _ fun c => Top.of_natDegree_le (htrace c)).natDegree_le
  · have hmono : ∀ n c, Top (C (a c) * X ^ n) n (a c) := fun n c => Top.monomial n (a c)
    exact ⟨fun c => C (a c) * X ^ 255, fun c => (hmono 255 c).natDegree_le, (h _ a (hmono 255)).natDegree_eq ha⟩

/-- The leading coefficients of a trace that is `X^255` in some columns and zero in the others. -/
def only (cols : List (Fin 50)) : Row BaseElement := fun c => if c ∈ cols then 1 else 0

theorem only_of_mem {cols : List (Fin 50)} {c : Fin 50} (h : c ∈ cols) : only cols c = 1 := if_pos h

theorem only_of_not_mem {cols : List (Fin 50)} {c : Fin 50} (h : c ∉ cols) : only cols c = 0 := if_neg h

section

variable {g : BaseElement} (hg : IsPrimitiveRoot g traceLength) (pubInputs : PublicInputs)

include hg

theorem lane_exact {k : Fin 49} {i : Fin 8} (hk : k.val = i.val) : DegreeExact pubInputs g k 989 := by
  have hi : i.val < 49 := lt_trans i.isLt (by norm_num)
  obtain rfl : k = ⟨i.val, hi⟩ := Fin.ext hk
  obtain ⟨l, hl, hlast⟩ := top_isLast hg
  refine DegreeExact.of_top (fun a => 0 - ((0 - l) * mix (sbox fun j => a (stateCol j)) i +
    l * boundaryLead a (fun c => g ^ 255 * a c) i)) ?_ (only [stateCol i]) ?_
  · intro trace a ha
    have hnxt : ∀ c, Top (nextRow g trace c) 255 (g ^ 255 * a c) := fun c => (ha c).comp_scale g
    have hround := ((Top.one (by norm_num)).sub hlast).mul (top_applyRound ha (top_roundConstant hg) i)
    have hboundary := hlast.mul (top_boundary ha hnxt i)
    rw [transitionPoly, evaluateTransition_lane]
    exact ((hnxt (stateCol i)).lower (by norm_num)).sub (hround.add hboundary)
  · -- with lane `i` alone the mixed cubes give 2, and no Merkle step is selected
    have hmerkle : ∀ i, tMerkle ∉ [stateCol i] := by decide
    have hboundary : boundaryLead (only [stateCol i]) (fun c => g ^ 255 * only [stateCol i] c) i = 0 := by
      unfold boundaryLead
      simp only [only_of_not_mem (hmerkle i), mul_zero, zero_mul]
      fin_cases i <;> rfl
    have hlane : ∀ j, only [stateCol i] (stateCol j) ^ 3 = if j = i then 1 else 0 := fun j => by
      have hcol : ∀ i j, stateCol j ∈ [stateCol i] ↔ j = i := by decide
      by_cases hj : j = i
      · rw [if_pos hj, only_of_mem ((hcol i j).2 hj), one_pow]
      · rw [if_neg hj, only_of_not_mem fun h => hj ((hcol i j).1 h), zero_pow (by norm_num)]
    have hmix : mix (sbox fun j => only [stateCol i] (stateCol j)) i = 2 := by
      have hsucc : ∀ i : Fin 8, i + 1 ≠ i := by decide
      rw [mix_eq]
      simp only [sbox, hlane, if_neg (hsucc i), if_true, Finset.sum_ite_eq', Finset.mem_univ]
      norm_num
    rw [hboundary, hmix, mul_zero, add_zero, zero_sub, zero_sub, neg_mul, neg_neg]
    exact mul_ne_zero hl (natCast_ne_zero (n := 2) (by norm_num) (by norm_num [modulus]))

theorem held_exact {k : Fin 49} (c : Fin 50)
    (hk : ∀ trace, transitionPoly pubInputs g trace k = nextRow g trace c - trace c) :
    DegreeExact pubInputs g k 255 := by
  refine DegreeExact.of_top (fun a => g ^ 255 * a c - a c) ?_ (fun _ => 1) ?_
  · intro trace a ha
    rw [hk]
    exact ((ha c).comp_scale g).sub (ha c)
  · rw [mul_one, sub_ne_zero]
    exact hg.pow_ne_one_of_pos_of_lt (by norm_num) (by norm_num)

theorem gated_bit_exact {k : Fin 49} (c : Fin 50)
    (hk : ∀ trace, transitionPoly pubInputs g trace k = periodicPoly g 8 * (trace c * trace c - trace c)) :
    DegreeExact pubInputs g k 734 := by
  obtain ⟨f, hf, hfirst⟩ := top_isFirst hg
  refine DegreeExact.of_top (fun a => f * (a c * a c - 0)) ?_ (fun _ => 1) ?_
  · intro trace a ha
    rw [hk]
    exact hfirst.mul (((ha c).mul (ha c)).sub ((ha c).lower (by norm_num)))
  · rw [mul_one, sub_zero, mul_one]
    exact hf

theorem oneHot_exact : DegreeExact pubInputs g 14 479 := by
  obtain ⟨f, hf, hfirst⟩ := top_isFirst hg
  refine DegreeExact.of_top (fun a => f * (a tOwner + a tLeaf + a tMerkle + a tNullifier - 0)) ?_
    (only [tOwner]) ?_
  · intro trace a ha
    exact hfirst.mul (((((ha tOwner).add (ha tLeaf)).add (ha tMerkle)).add (ha tNullifier)).sub (Top.one (by norm_num)))
  · rw [only_of_mem (c := tOwner) (by decide), only_of_not_mem (c := tLeaf) (by decide),
      only_of_not_mem (c := tMerkle) (by decide), only_of_not_mem (c := tNullifier) (by decide)]
    simpa using hf

theorem direction_exact : DegreeExact pubInputs g 15 989 := by
  obtain ⟨f, hf, hfirst⟩ := top_isFirst hg
  refine DegreeExact.of_top (fun a => f * a tMerkle * (a auxB * a auxB - 0)) ?_ (fun _ => 1) ?_
  · intro trace a ha
    exact (hfirst.mul (ha tMerkle)).mul (((ha auxB).mul (ha auxB)).sub ((ha auxB).lower (by norm_num)))
  · rw [mul_one, mul_one, sub_zero, mul_one]
    exact hf

omit hg in
theorem rangeBit_exact {k : Fin 49} {i : Fin 32} (hk : k.val = 16 + i.val) : DegreeExact pubInputs g k 510 := by
  have hi : 16 + i.val < 49 := lt_trans (Nat.add_lt_add_left i.isLt 16) (by norm_num)
  obtain rfl : k = ⟨16 + i.val, hi⟩ := Fin.ext hk
  refine DegreeExact.of_top (fun a => a (rcBit i) * a (rcBit i) - 0) ?_ (fun _ => 1) ?_
  · intro trace a ha
    rw [transitionPoly, evaluateTransition_rangeBit]
    exact ((ha _).mul (ha _)).sub ((ha _).lower (by norm_num))
  · rw [mul_one, sub_zero]
    exact one_ne_zero

theorem rangeSum_exact : DegreeExact pubInputs g 48 734 := by
  obtain ⟨f, hf, hfirst⟩ := top_isFirst hg
  refine DegreeExact.of_top (fun a => f * a tLeaf * (weighted a - (a auxD - 0 - 0))) ?_
    (only [tLeaf, auxD]) ?_
  · intro trace a ha
    have hdiff := ((ha auxD).sub ((Top.const pubInputs.currentTimestamp).lower (by norm_num))).sub
      (Top.one (by norm_num))
    exact (hfirst.mul (ha tLeaf)).mul ((top_weighted ha).sub hdiff)
  · -- the weighted bits cannot cancel `auxD` when they are zero
    have hbits : ∀ i, rcBit i ∉ [tLeaf, auxD] := by decide
    have hweighted : weighted (only [tLeaf, auxD]) = 0 :=
      Finset.sum_eq_zero fun i _ => by rw [only_of_not_mem (hbits i), zero_mul]
    rw [hweighted, only_of_mem (c := tLeaf) (by decide), only_of_mem (c := auxD) (by decide)]
    simpa using hf

/-- The degrees declared for the 49 constraints are exact: read over polynomials, with 50 columns of degree
at most 255, the constraint of each entry has at most its evaluation degree, `255` for each column factor
and `32 · 7` for each cycle, and some columns attain it. -/
theorem declared_degrees_exact : degrees.length = 49 ∧
    (∀ d ∈ degrees, d.evaluationDegree traceLength = d.base * 255 + 32 * 7 * d.cycles.length) ∧
    ∀ k : Fin 49, ∃ d, degrees[k.val]? = some d ∧
      (∀ trace : Row BaseElement[X], (∀ c, (trace c).natDegree ≤ 255) →
        (transitionPoly pubInputs g trace k).natDegree ≤ d.evaluationDegree traceLength) ∧
      ∃ trace : Row BaseElement[X], (∀ c, (trace c).natDegree ≤ 255) ∧
        (transitionPoly pubInputs g trace k).natDegree = d.evaluationDegree traceLength := by
  have hexact : ∀ k : Fin 49, ∃ d, degrees[k.val]? = some d ∧
      DegreeExact pubInputs g k (d.evaluationDegree traceLength) := by
    intro k
    obtain ⟨i, rfl⟩ | ⟨i, rfl⟩ | rfl | rfl | rfl | rfl | rfl | rfl | rfl | rfl | rfl := constraint_cases k
    · have hd : ∀ i : Fin 8, degrees[i.val]? = some (.withCycles 3 [rounds]) := by decide
      exact ⟨_, hd i, lane_exact hg pubInputs rfl⟩
    · have hd : ∀ i : Fin 32, degrees[16 + i.val]? = some (.new 2) := by decide
      exact ⟨_, hd i, rangeBit_exact pubInputs rfl⟩
    · exact ⟨_, rfl, held_exact hg pubInputs heldSecret fun _ => rfl⟩
    · exact ⟨_, rfl, held_exact hg pubInputs heldPid fun _ => rfl⟩
    · exact ⟨_, rfl, gated_bit_exact hg pubInputs tOwner fun _ => rfl⟩
    · exact ⟨_, rfl, gated_bit_exact hg pubInputs tLeaf fun _ => rfl⟩
    · exact ⟨_, rfl, gated_bit_exact hg pubInputs tMerkle fun _ => rfl⟩
    · exact ⟨_, rfl, gated_bit_exact hg pubInputs tNullifier fun _ => rfl⟩
    · exact ⟨_, rfl, oneHot_exact hg pubInputs⟩
    · exact ⟨_, rfl, direction_exact hg pubInputs⟩
    · exact ⟨_, rfl, rangeSum_exact hg pubInputs⟩
  refine ⟨rfl, by decide, fun k => ?_⟩
  obtain ⟨d, hd, hk⟩ := hexact k
  exact ⟨d, hd, hk.bound, hk.attained⟩

end

/-! ## A trace domain -/

/-- A generator of the trace domain. -/
def traceGenerator : BaseElement := BaseElement.new 136257249355923752058795611038843206115

theorem traceGenerator_pow : traceGenerator ^ 2 ^ 7 = -1 := by
  have hzero : ((136257249355923752058795611038843206115 ^ 2 ^ 7 + 1 : ℕ) : BaseElement) = 0 := by
    rw [ZMod.natCast_eq_zero_iff]
    norm_num [modulus]
  rw [Nat.cast_add, Nat.cast_pow, Nat.cast_one] at hzero
  exact eq_neg_of_add_eq_zero_left hzero

theorem traceGenerator_primitive : IsPrimitiveRoot traceGenerator traceLength := by
  have hne : ¬ traceGenerator ^ 2 ^ 7 = 1 := by
    rw [traceGenerator_pow]
    intro h
    refine natCast_ne_zero (n := 2) (by norm_num) (by norm_num [modulus]) ?_
    linear_combination -h
  have hone : traceGenerator ^ 2 ^ (7 + 1) = 1 := by
    rw [pow_succ, pow_mul, traceGenerator_pow]
    norm_num
  have horder : orderOf traceGenerator = traceLength := orderOf_eq_prime_pow hne hone
  rw [← horder]
  exact IsPrimitiveRoot.orderOf traceGenerator

theorem declared_degrees_exact_lane : ∃ trace : Row BaseElement[X], (∀ c, (trace c).natDegree ≤ 255) ∧
    (transitionPoly ⟨0, 0, 0, 0, 0, 0⟩ traceGenerator trace 0).natDegree = 989 := by
  obtain ⟨d, hd, -, trace, htrace, hk⟩ :=
    (declared_degrees_exact traceGenerator_primitive ⟨0, 0, 0, 0, 0, 0⟩).2.2 0
  cases hd
  exact ⟨trace, htrace, hk⟩

end Yaqeen.Air
