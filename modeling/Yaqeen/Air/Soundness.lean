/-
Soundness of the circuit against any table a prover may choose: from the leaf job on, a satisfying
table is a computation of the hash along one Merkle path and of the nullifier. The lanes of row 0 are
bound by no assertion and by no enforced transition, so the digest of the owner job is that of
whatever lanes the table starts from.
-/
import Yaqeen.Air.JobTable
import Yaqeen.Air.Eval

namespace Yaqeen.Air

open HashTree

/-! ## A sample statement -/

/-- Zero secrets, siblings and directions, expiry 1 at time 0, and a first job that starts from any
lanes. -/
def sampleData (first : Lanes BaseElement) : JobData where
  secret := 0
  pid := 0
  first := first
  aux := fun job => if job = 1 then ![0, 0, 1, 1] else ![0, 0, 0, 0]

theorem sample_fits (first : Lanes BaseElement) : (sampleData first).Fits (fun _ => 0) 0 where
  unencumbered := rfl
  licensed := rfl
  direction job _ hm := by
    have h1 : job ≠ 1 := by
      rintro rfl
      exact absurd hm (by decide)
    show (if job = 1 then _ else _ : Fin 4 → BaseElement) 1 = 0 ∨ _
    rw [if_neg h1]
    exact .inl rfl
  bits _ := .inl rfl
  sum := by
    rw [Finset.sum_eq_zero fun i _ => zero_mul _]
    show (0 : BaseElement) = 1 - 0 - 1
    rw [sub_zero, sub_self]

/-! ## The owner job -/

section

variable {pubInputs : PublicInputs} {t : TraceTable}

/-- The leaf job absorbs the digest of the owner job. -/
theorem leaf_absorbs_digest (h : Satisfies pubInputs t) : t.row 8 (stateCol 2) = t.row 7 s0 :=
  congrFun ((lanes_job_start h 0 (by omega)).trans (boundary_leaf (hasType_job h 1 (by omega)))) 2

/-- The last transition, which is not enforced, would start the owner job from its own inputs. -/
theorem owner_inputs (h : Satisfies pubInputs t) (hlast : TransitionHolds pubInputs t 255) :
    t.lanes 0 = absorb [BaseElement.new domainOwnerCommitment, t.row 0 heldSecret, t.row 0 heldPid] := by
  have hl : t.lanes 0 = boundary (t.row 255) (t.row 0) := lanes_boundary hlast (by omega)
  have ht : HasType (t.row 0) tOwner := hasType_job h 0 (by omega)
  obtain ⟨hs, hp⟩ := held_constant h 255 le_rfl
  rw [hl, boundary_owner ht, hs, hp]

/-- The commitment in the leaf opens to the held pair exactly when the lanes of row 0, which nothing
enforced binds, have the seven-round digest of the owner inputs. They do when they are these
inputs, as they are if the exempted last transition holds too. -/
theorem owner_commitment_opens_iff (h : Satisfies pubInputs t) :
    ((t.row 7 s0 = hash [BaseElement.new domainOwnerCommitment, t.row 0 heldSecret, t.row 0 heldPid] ∧
        t.row 8 (stateCol 2) = hash [BaseElement.new domainOwnerCommitment, t.row 0 heldSecret, t.row 0 heldPid]) ↔
      runRounds 7 (t.lanes 0) 0 =
        runRounds 7 (absorb [BaseElement.new domainOwnerCommitment, t.row 0 heldSecret, t.row 0 heldPid]) 0) ∧
    (TransitionHolds pubInputs t 255 →
      t.lanes 0 = absorb [BaseElement.new domainOwnerCommitment, t.row 0 heldSecret, t.row 0 heldPid]) := by
  have hd : t.row 7 s0 = runRounds 7 (t.lanes 0) 0 := digest_job h 0 (by omega)
  refine ⟨?_, owner_inputs h⟩
  rw [leaf_absorbs_digest h, hd, hash_def]
  exact and_self_iff

end

/-- The owner inputs themselves are among the lanes the condition allows. -/
theorem owner_commitment_opens_iff_sample :
    let d := sampleData (absorb [BaseElement.new domainOwnerCommitment, 0, 0])
    let t := d.table (fun _ => 0) 32
    ((t.row 7 s0 = hash [BaseElement.new domainOwnerCommitment, t.row 0 heldSecret, t.row 0 heldPid] ∧
        t.row 8 (stateCol 2) = hash [BaseElement.new domainOwnerCommitment, t.row 0 heldSecret, t.row 0 heldPid]) ↔
      runRounds 7 (t.lanes 0) 0 =
        runRounds 7 (absorb [BaseElement.new domainOwnerCommitment, t.row 0 heldSecret, t.row 0 heldPid]) 0) ∧
    (TransitionHolds (d.publicInputs 0) t 255 →
      t.lanes 0 = absorb [BaseElement.new domainOwnerCommitment, t.row 0 heldSecret, t.row 0 heldPid]) :=
  owner_commitment_opens_iff (JobData.satisfies_of_fits (sample_fits _))

/-- A table whose first row is all zero is accepted with a commitment that does not open. -/
theorem forged_commitment_accepted :
    let d := sampleData (absorb [])
    let t := d.table (fun _ => 0) 32
    Satisfies (d.publicInputs 0) t ∧
      t.row 8 (stateCol 2) ≠ hash [BaseElement.new domainOwnerCommitment, t.row 0 heldSecret, t.row 0 heldPid] := by
  intro d t
  have hsat : Satisfies (d.publicInputs 0) t := JobData.satisfies_of_fits (sample_fits _)
  refine ⟨hsat, ?_⟩
  have hd : t.row 7 s0 = hash ([].map BaseElement.new) := by
    rw [hash_def]
    exact d.cell_digest (fun _ => 0) 0 (by omega)
  have hi : [BaseElement.new domainOwnerCommitment, t.row 0 heldSecret, t.row 0 heldPid] =
      [2, 0, 0].map BaseElement.new := by
    show [BaseElement.new 2, 0, 0] = [BaseElement.new 2, BaseElement.new 0, BaseElement.new 0]
    rw [show BaseElement.new 0 = 0 from Nat.cast_zero]
  rw [leaf_absorbs_digest hsat, hd, hi, hash_eval, hash_eval]
  intro heq
  have hne : hashList [] % modulus ≠ hashList [2, 0, 0] % modulus := by decide +kernel
  exact hne ((ZMod.natCast_eq_natCast_iff' _ _ _).1 heq)

/-! ## From the leaf job on -/

/-- The leaf job hashes the flags the statement promises, the Merkle jobs fold it along boolean
directions to the public root, the nullifier is that of the pair held on all rows, and every job
has the type its position gives it. -/
theorem computation_sound {pubInputs : PublicInputs} {t : TraceTable} (h : Satisfies pubInputs t) :
    t.row 15 s0 = hash [BaseElement.new domainLeaf, pubInputs.registryId, t.row 7 s0, 0, 1, t.row 8 auxD] ∧
    (∀ level < treeDepth, t.row (jobStartRow (jobMerkleFirst + level)) auxB = 0 ∨
      t.row (jobStartRow (jobMerkleFirst + level)) auxB = 1) ∧
    foldPath nodeHash (t.row 15 s0) ((List.range treeDepth).map t.merkleStep) = pubInputs.merkleRoot ∧
    (∀ i < traceLength, t.row i heldSecret = t.row 0 heldSecret ∧ t.row i heldPid = t.row 0 heldPid) ∧
    pubInputs.nullifier = hash [BaseElement.new domainNullifier, t.row 0 heldSecret, t.row 0 heldPid,
      pubInputs.purpose, pubInputs.requestNonce] ∧
    ∀ job < jobCount, HasType (t.row (jobStartRow job)) (jobTypeColumn job) := by
  refine ⟨leaf_digest h, fun level hl => ?_, merkle_root h, fun i hi => held_constant h i (Nat.le_of_lt_succ hi),
    nullifier_digest h, fun job hj => ?_⟩
  · rw [show jobStartRow (jobMerkleFirst + level) = 8 * (2 + level) from Nat.mul_comm _ _]
    exact merkle_bit h hl
  · rw [show jobStartRow job = 8 * job from Nat.mul_comm _ _]
    exact hasType_job h job hj

theorem computation_sound_sample :
    let d := sampleData (absorb [BaseElement.new domainOwnerCommitment, 0, 0])
    let t := d.table (fun _ => 0) 32
    foldPath nodeHash (t.row 15 s0) ((List.range treeDepth).map t.merkleStep) = (d.publicInputs 0).merkleRoot := by
  intro d t
  exact (computation_sound (JobData.satisfies_of_fits (sample_fits _) : Satisfies (d.publicInputs 0) t)).2.2.1

end Yaqeen.Air
