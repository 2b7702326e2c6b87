/-
What the production builder refuses. It panics on an expiry that is not after the timestamp, but
keeps only the low 32 bits of the difference: on an expiry more than `2^32` past the timestamp, which
no range-check bits satisfy, it returns a table that breaks the weighted sum of the leaf row.
-/
import Yaqeen.Prover.Completeness

namespace Yaqeen.Prover

open Air

/-- Some range-check bits satisfy the circuit on the leaf row of a witness. -/
def RangeSatisfiable (w : Witness) : Prop :=
  ∃ (pubInputs : PublicInputs) (cur nxt : Row BaseElement),
    pubInputs.currentTimestamp = BaseElement.new w.currentTimestamp.toNat ∧ cur tLeaf = 1 ∧
      cur auxD = BaseElement.new w.licenseExpiry.toNat ∧ RangeCheck pubInputs cur nxt rowLeafFirst

/-- Every transition a proof attests to is zero on each table the builder returns. -/
def ReturnsSatisfied (w : Witness) : Prop :=
  ∀ cols pubInputs, buildTrace w = some (cols, pubInputs) → ∀ i < traceLength - 1, TransitionHolds pubInputs cols i

section

variable (w : Witness)

theorem rangeSatisfiable_iff : RangeSatisfiable w ↔ InRange w.licenseExpiry w.currentTimestamp := by
  constructor
  · rintro ⟨pubInputs, cur, nxt, hnow, hleaf, hexpiry, h⟩
    exact (exists_rangeCheck_iff hnow nxt jobLeaf).1 ⟨cur, hleaf, hexpiry, h⟩
  · intro h
    let pubInputs : PublicInputs := ⟨0, 0, 0, 0, BaseElement.new w.currentTimestamp.toNat, 0⟩
    obtain ⟨cur, hleaf, hexpiry, hcheck⟩ :=
      (exists_rangeCheck_iff (show pubInputs.currentTimestamp = _ from rfl) (fun _ => 0) jobLeaf).2 h
    exact ⟨pubInputs, cur, _, rfl, hleaf, hexpiry, hcheck⟩

/-- The checked subtractions panic on an expiry that is not after the timestamp. -/
theorem writeRangeBits_eq_none (h : w.licenseExpiry ≤ w.currentTimestamp) (cols : TraceTable) :
    writeRangeBits w cols = none := by
  unfold writeRangeBits
  by_cases hle : w.currentTimestamp ≤ w.licenseExpiry
  · have heq : w.licenseExpiry - w.currentTimestamp = 0 := by
      rw [UInt64.le_antisymm h hle, UInt64.sub_self]
    rw [guard, if_pos hle, heq, guard, if_neg (by decide)]
    rfl
  · rw [guard, if_neg hle]
    rfl

theorem buildTrace_eq_none (h : w.licenseExpiry ≤ w.currentTimestamp) : buildTrace w = none := by
  unfold buildTrace
  simp only [writeRangeBits_eq_none w h]
  rfl

/-- The table the builder lays out satisfies its leaf row only if the expiry is in range. -/
theorem inRange_of_transition
    (h : TransitionHolds ((witnessData w).publicInputs (BaseElement.new w.currentTimestamp.toNat))
      ((witnessData w).table (rangeBits w) 32) rowLeafFirst) : InRange w.licenseExpiry w.currentTimestamp := by
  have hleaf : ((witnessData w).table (rangeBits w) 32).row rowLeafFirst tLeaf = 1 := by
    rw [JobData.row_table _ _ 32 (by decide), JobData.cell_type _ _ (by decide) (by decide)]
    rfl
  have hexpiry : ((witnessData w).table (rangeBits w) 32).row rowLeafFirst auxD =
      BaseElement.new w.licenseExpiry.toNat := by
    rw [show rowLeafFirst = 8 * 1 from rfl, show auxD = auxCol 3 from rfl, JobData.row_aux _ _ 1 (by decide)]
    rfl
  exact (rangeSatisfiable_iff w).1 ⟨_, _, _, rfl, hleaf, hexpiry, fun k _ => h k⟩

variable (hs : w.merkleSiblings.length = treeDepth) (hb : w.merkleBits.length = treeDepth)

include hs hb

theorem refuses_unsatisfiable_iff :
    (¬ RangeSatisfiable w → buildTrace w = none) ↔ w.licenseExpiry.toNat ≤ w.currentTimestamp.toNat + 2 ^ 32 := by
  rw [rangeSatisfiable_iff]
  constructor
  · intro h
    by_contra hgt
    have hlt : w.currentTimestamp < w.licenseExpiry := UInt64.lt_iff_toNat_lt.2 (by omega)
    have hnone := h fun hrange => hgt (by have := hrange.2; omega)
    rw [buildTrace_eq w hs hb hlt] at hnone
    cases hnone
  · intro hle hout
    refine buildTrace_eq_none w (UInt64.le_iff_toNat_le.2 (Nat.not_lt.1 fun hlt => hout ⟨hlt, ?_⟩))
    omega

theorem returnsSatisfied_iff :
    ReturnsSatisfied w ↔ w.licenseExpiry.toNat ≤ w.currentTimestamp.toNat + 2 ^ 32 := by
  constructor
  · intro h
    by_contra hgt
    have hlt : w.currentTimestamp < w.licenseExpiry := UInt64.lt_iff_toNat_lt.2 (by omega)
    have hrange := inRange_of_transition w (h _ _ (buildTrace_eq w hs hb hlt) rowLeafFirst (by decide))
    have := hrange.2
    omega
  · intro hle cols pubInputs heq i hi
    by_cases hlt : w.currentTimestamp < w.licenseExpiry
    · have heq' := buildTrace_eq w hs hb hlt
      rw [heq] at heq'
      cases heq'
      exact JobData.transition_of_fits (witness_fits w hlt hle) (Nat.lt_of_lt_pred hi) fun _ => rfl
    · rw [buildTrace_eq_none w (UInt64.not_lt.1 hlt)] at heq
      cases heq

end

/-- The builder panics whenever no range-check bits satisfy the circuit, and returns satisfied tables
only, exactly when the expiry is at most `2^32` past the timestamp. -/
theorem build_trace_refuses_iff (w : Witness) (hs : w.merkleSiblings.length = treeDepth)
    (hb : w.merkleBits.length = treeDepth) :
    ((¬ RangeSatisfiable w → buildTrace w = none) ↔
      w.licenseExpiry.toNat ≤ w.currentTimestamp.toNat + 2 ^ 32) ∧
    (ReturnsSatisfied w ↔ w.licenseExpiry.toNat ≤ w.currentTimestamp.toNat + 2 ^ 32) :=
  ⟨refuses_unsatisfiable_iff w hs hb, returnsSatisfied_iff w hs hb⟩

theorem build_trace_refuses_iff_sample :
    ((¬ RangeSatisfiable sampleWitness → buildTrace sampleWitness = none) ↔ 1001 ≤ 1000 + 2 ^ 32) ∧
    (ReturnsSatisfied sampleWitness ↔ 1001 ≤ 1000 + 2 ^ 32) :=
  build_trace_refuses_iff sampleWitness rfl rfl

/-- A witness with a licence that outlasts the timestamp by `2^32 + 1` seconds. -/
def longWitness : Witness := { sampleWitness with currentTimestamp := 0, licenseExpiry := 4294967297 }

/-- No bits satisfy the range check for it, yet the builder returns a table, which breaks a transition. -/
theorem build_trace_accepts_long : longWitness.merkleSiblings.length = treeDepth ∧
    longWitness.merkleBits.length = treeDepth ∧ ¬ RangeSatisfiable longWitness ∧
    ∃ cols pubInputs, buildTrace longWitness = some (cols, pubInputs) ∧
      ¬ TransitionHolds pubInputs cols rowLeafFirst := by
  have hout : ¬ InRange longWitness.licenseExpiry longWitness.currentTimestamp := fun h => absurd h.2 (by decide)
  exact ⟨rfl, rfl, fun h => hout ((rangeSatisfiable_iff _).1 h), _, _, buildTrace_eq longWitness rfl rfl (by decide),
    fun h => hout (inRange_of_transition _ h)⟩

end Yaqeen.Prover
