/-
The trace builder of the test harness and its check of all constraints. The builder refuses every
witness the production builder goes wrong on, returns what that one returns on all others, and each table
it returns passes the check on all 256 cyclic pairs of rows, with the root that `recompute_root` finds.
-/
import Yaqeen.Air.Language
import Yaqeen.Harness.Support

namespace Yaqeen.Harness

open Air HashTree Prover

/-! ## The builder -/

/-- As the production code does, after one more assertion on the difference. -/
def writeRangeBits (w : Witness) (cols : TraceTable) : Option TraceTable := do
  guard (w.currentTimestamp ≤ w.licenseExpiry)
  guard (1 ≤ w.licenseExpiry - w.currentTimestamp)
  let diff := w.licenseExpiry - w.currentTimestamp - 1
  guard (diff < 4294967296)
  let bits := toBitsLe diff 32
  return (List.finRange 32).foldl
    (fun cols i => write cols (rcBit i) (jobStartRow jobLeaf) (bits.getD i.val 0)) cols

/-- The jobs are those of the production builder. -/
def buildTrace (w : Witness) : Option (TraceTable × PublicInputs) := do
  guard (w.merkleSiblings.length = treeDepth)
  guard (w.merkleBits.length = treeDepth)
  let (cols, ownerCommitment) := runJob (initialCols w) jobOwner
    ![BaseElement.new domainOwnerCommitment, w.ownerSecret, w.propertyId, 0, 0, 0, 0, 0] ![0, 0, 0, 0]
  let licenseExpiryFe := BaseElement.new w.licenseExpiry.toNat
  let (cols, leaf) := runJob cols jobLeaf
    ![BaseElement.new domainLeaf, w.registryId, ownerCommitment, 0, 1, licenseExpiryFe, 0, 0]
    ![w.registryId, 0, 1, licenseExpiryFe]
  let cols ← writeRangeBits w cols
  let (cols, merkleRoot) ← (List.range treeDepth).foldlM (merkleJob w) (cols, leaf)
  let (cols, nullifier) := runJob cols jobNullifier
    ![BaseElement.new domainNullifier, w.ownerSecret, w.propertyId, w.purpose, w.requestNonce, 0, 0, 0]
    ![w.purpose, w.requestNonce, 0, 0]
  let (cols, _) := (List.range' (jobNullifier + 1) (jobCount - (jobNullifier + 1))).foldl
    (fun (p : TraceTable × BaseElement) job =>
      runJob p.1 job ![BaseElement.new domainNode, p.2, 0, 0, 0, 0, 0, 0] ![0, 0, 0, 0])
    (cols, nullifier)
  return (cols, {
    registryId := w.registryId
    merkleRoot := merkleRoot
    purpose := w.purpose
    requestNonce := w.requestNonce
    currentTimestamp := BaseElement.new w.currentTimestamp.toNat
    nullifier := nullifier })

/-- All constraints on every row and the next, which after the last is the first. -/
def evalAllConstraints (pubInputs : PublicInputs) (cols : TraceTable) : List (List BaseElement) :=
  (List.range traceLength).map fun step =>
    let nextStep := (step + 1) % traceLength
    let cyclePos := step % rounds
    List.ofFn (evaluateTransition pubInputs (cols.row step) (cols.row nextStep) (periodicValues cyclePos))

/-! ## Refusals -/

/-- The witnesses the builder does not panic on. -/
structure Fits (w : Witness) : Prop where
  siblings : w.merkleSiblings.length = treeDepth
  bits : w.merkleBits.length = treeDepth
  expiry : InRange w.licenseExpiry w.currentTimestamp

theorem writeRangeBits_eq {w : Witness} (h : InRange w.licenseExpiry w.currentTimestamp) :
    writeRangeBits w = Prover.writeRangeBits w := by
  have hlt : w.currentTimestamp < w.licenseExpiry := UInt64.lt_iff_toNat_lt.2 h.1
  have hdiff : w.licenseExpiry - w.currentTimestamp - 1 < 4294967296 := by
    rw [UInt64.lt_iff_toNat_lt, diff_toNat w hlt]
    have := h.1
    have := h.2
    show _ < 4294967296
    omega
  funext cols
  simp only [writeRangeBits, Prover.writeRangeBits, guard, if_pos hdiff]
  rfl

theorem writeRangeBits_none {w : Witness} (h : ¬ InRange w.licenseExpiry w.currentTimestamp) (cols : TraceTable) :
    writeRangeBits w cols = none := by
  by_cases hlt : w.currentTimestamp < w.licenseExpiry
  · have hdiff : ¬ w.licenseExpiry - w.currentTimestamp - 1 < 4294967296 := by
      rw [UInt64.lt_iff_toNat_lt, diff_toNat w hlt]
      have hlt := UInt64.lt_iff_toNat_lt.1 hlt
      intro hd
      have hd : w.licenseExpiry.toNat - w.currentTimestamp.toNat - 1 < 4294967296 := hd
      exact h ⟨hlt, by omega⟩
    simp only [writeRangeBits, guard, if_neg hdiff]
    split_ifs <;> rfl
  · have hnone := Prover.writeRangeBits_eq_none w (UInt64.not_lt.1 hlt) cols
    simp only [Prover.writeRangeBits, guard] at hnone
    simp only [writeRangeBits, guard]
    split_ifs at hnone ⊢ <;> first | rfl | cases hnone

/-- The builder panics exactly on the witnesses that do not fit, and is the production builder on the others. -/
theorem buildTrace_eq_some {w : Witness} {out : TraceTable × PublicInputs} :
    buildTrace w = some out ↔ Fits w ∧ Prover.buildTrace w = some out := by
  by_cases hs : w.merkleSiblings.length = treeDepth
  · by_cases hb : w.merkleBits.length = treeDepth
    · by_cases hx : InRange w.licenseExpiry w.currentTimestamp
      · have heq : buildTrace w = Prover.buildTrace w := by
          unfold buildTrace Prover.buildTrace
          rw [writeRangeBits_eq hx, guard, if_pos hs, guard, if_pos hb]
          rfl
        rw [heq]
        exact ⟨fun h => ⟨⟨hs, hb, hx⟩, h⟩, fun h => h.2⟩
      · have hnone : buildTrace w = none := by
          unfold buildTrace guard
          simp only [if_pos hs, if_pos hb, writeRangeBits_none hx]
          rfl
        rw [hnone]
        exact ⟨fun h => (Option.some_ne_none _ h.symm).elim, fun h => (hx h.1.expiry).elim⟩
    · have hnone : buildTrace w = none := by
        unfold buildTrace guard
        rw [if_neg hb, if_pos hs]
        rfl
      rw [hnone]
      exact ⟨fun h => (Option.some_ne_none _ h.symm).elim, fun h => (hb h.1.bits).elim⟩
  · have hnone : buildTrace w = none := by
      unfold buildTrace guard
      rw [if_neg hs]
      rfl
    rw [hnone]
    exact ⟨fun h => (Option.some_ne_none _ h.symm).elim, fun h => (hs h.1.siblings).elim⟩

/-! ## The check of its tables -/

theorem periodicValues_mod (step : ℕ) : periodicValues (step % rounds) = periodicValues step := by
  unfold periodicValues
  funext c
  congr 1
  exact Fin.ext (by simp)

theorem row_next (cols : TraceTable) (step : ℕ) : cols.row ((step + 1) % traceLength) = cols.row (step + 1) := by
  unfold TraceTable.row
  congr 1
  exact Fin.ext (Nat.mod_mod (step + 1) 256)

/-- The check is that of all transitions, the exempted one included. -/
theorem evalAllConstraints_zero_iff {pubInputs : PublicInputs} {cols : TraceTable} :
    (∀ values ∈ evalAllConstraints pubInputs cols, ∀ v ∈ values, v = 0) ↔
      ∀ i < traceLength, TransitionHolds pubInputs cols i := by
  unfold evalAllConstraints TransitionHolds
  simp only [List.forall_mem_map, List.mem_range, List.forall_mem_ofFn_iff, row_next, periodicValues_mod]

/-- For every witness the builder returns exactly what the production builder returns, unless the path is
not of the depth of the tree or the expiry is out of range, where it panics. All it returns passes the check
of every assertion and of every constraint on every cyclic pair of rows, and shows the root recomputed from
the leaf of the witness and its path. -/
theorem builder_exact (w : Witness) :
    (∀ out, buildTrace w = some out ↔ Fits w ∧ Prover.buildTrace w = some out) ∧
    (Fits w → ∃ out, Prover.buildTrace w = some out) ∧
    ∀ cols pubInputs, buildTrace w = some (cols, pubInputs) →
      AssertionsHold pubInputs cols ∧ (∀ values ∈ evalAllConstraints pubInputs cols, ∀ v ∈ values, v = 0) ∧
      recomputeRoot (eligibleLeaf w.registryId (ownerCommitment w.ownerSecret w.propertyId)
        (BaseElement.new w.licenseExpiry.toNat)) w.merkleSiblings w.merkleBits = some pubInputs.merkleRoot := by
  have hproduction : Fits w → Prover.buildTrace w = some ((witnessData w).table (rangeBits w) 32,
      (witnessData w).publicInputs (BaseElement.new w.currentTimestamp.toNat)) := fun hw =>
    buildTrace_eq w hw.siblings hw.bits (UInt64.lt_iff_toNat_lt.2 hw.expiry.1)
  refine ⟨fun out => buildTrace_eq_some, fun hw => ⟨_, hproduction hw⟩, fun cols pubInputs h => ?_⟩
  obtain ⟨hw, h⟩ := buildTrace_eq_some.1 h
  rw [hproduction hw] at h
  cases h
  have hlt := hw.expiry.1
  have hle := hw.expiry.2
  have hf := witness_fits w (UInt64.lt_iff_toNat_lt.2 hlt) (by omega)
  refine ⟨JobData.assertions_of_fits hf, evalAllConstraints_zero_iff.2 fun i hi => ?_, ?_⟩
  · exact JobData.transition_of_fits hf hi fun _ => rfl
  · rw [recomputeRoot_eq hw.siblings hw.bits]
    exact congrArg some (digest_root w hw.siblings hw.bits).symm

end Yaqeen.Harness
