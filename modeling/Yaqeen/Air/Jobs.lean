/-
What the constraints of a satisfying trace force, job by job: within a job the lanes follow the
rounds of the permutation, the selectors on a job's first row are the one-hot vector of its type,
so the lanes it starts from are the inputs of that type, and the held columns never change.
-/
import Yaqeen.Air.Title
import Yaqeen.Lib.HashTree

namespace Yaqeen.Air

open HashTree

/-! ## Periodic values -/

theorem periodicValues_rc (i : ℕ) (lane : Fin 8) :
    periodicValues i (rcColumn lane) = roundConstants (Fin.ofNat 8 i) lane := by
  unfold periodicValues getPeriodicColumnValues rcColumn
  rw [dif_pos lane.isLt]

theorem periodicValues_first (i : ℕ) : periodicValues i 8 = if i % 8 = 0 then 1 else 0 := rfl

theorem periodicValues_last (i : ℕ) : periodicValues i 9 = if i % 8 = 7 then 1 else 0 := rfl

theorem transitionHolds_iff (pubInputs : PublicInputs) (t : TraceTable) (i : ℕ) :
    TransitionHolds pubInputs t i ↔
      TransitionOk pubInputs (t.row i) (t.row (i + 1)) (roundConstants (Fin.ofNat 8 i))
        (if i % 8 = 0 then 1 else 0) (if i % 8 = 7 then 1 else 0) := by
  unfold TransitionHolds
  rw [evaluateTransition_eq_zero_iff, periodicValues_first, periodicValues_last]
  simp only [periodicValues_rc]

/-! ## Inputs of a job by its type -/

def typeColumns : List (Fin 50) := [tOwner, tLeaf, tMerkle, tNullifier]

/-- The selectors of a row are the one-hot vector of a type column. -/
def HasType (r : Row BaseElement) (col : Fin 50) : Prop := ∀ c ∈ typeColumns, r c = if c = col then 1 else 0

theorem HasType.one {r : Row BaseElement} {col : Fin 50} (h : HasType r col) (hc : col ∈ typeColumns) :
    r col = 1 := by
  rw [h col hc, if_pos rfl]

theorem HasType.zero {r : Row BaseElement} {col c : Fin 50} (h : HasType r col) (hc : c ∈ typeColumns)
    (hne : c ≠ col) : r c = 0 := by
  rw [h c hc, if_neg hne]

section

variable {cur nxt : Row BaseElement}

theorem boundary_owner (h : HasType nxt tOwner) :
    boundary cur nxt = absorb [BaseElement.new domainOwnerCommitment, cur heldSecret, cur heldPid] := by
  have h1 : nxt tOwner = 1 := h.one (by decide)
  have h2 : nxt tLeaf = 0 := h.zero (by decide) (by decide)
  have h3 : nxt tMerkle = 0 := h.zero (by decide) (by decide)
  have h4 : nxt tNullifier = 0 := h.zero (by decide) (by decide)
  funext i
  fin_cases i <;> simp [boundary, absorb, h1, h2, h3, h4]

theorem boundary_leaf (h : HasType nxt tLeaf) :
    boundary cur nxt = absorb [BaseElement.new domainLeaf, nxt auxA, cur s0, nxt auxB, nxt auxC, nxt auxD] := by
  have h1 : nxt tOwner = 0 := h.zero (by decide) (by decide)
  have h2 : nxt tLeaf = 1 := h.one (by decide)
  have h3 : nxt tMerkle = 0 := h.zero (by decide) (by decide)
  have h4 : nxt tNullifier = 0 := h.zero (by decide) (by decide)
  funext i
  fin_cases i <;> simp [boundary, absorb, h1, h2, h3, h4]

/-- The children of a Merkle job: its sibling `auxA` is on the left when its bit `auxB` is 1. -/
theorem boundary_merkle (h : HasType nxt tMerkle) :
    boundary cur nxt = absorb [BaseElement.new domainNode, nxt auxB * nxt auxA + (1 - nxt auxB) * cur s0,
      nxt auxB * cur s0 + (1 - nxt auxB) * nxt auxA] := by
  have h1 : nxt tOwner = 0 := h.zero (by decide) (by decide)
  have h2 : nxt tLeaf = 0 := h.zero (by decide) (by decide)
  have h3 : nxt tMerkle = 1 := h.one (by decide)
  have h4 : nxt tNullifier = 0 := h.zero (by decide) (by decide)
  funext i
  fin_cases i <;> simp [boundary, absorb, h1, h2, h3, h4]

theorem boundary_nullifier (h : HasType nxt tNullifier) :
    boundary cur nxt =
      absorb [BaseElement.new domainNullifier, cur heldSecret, cur heldPid, nxt auxA, nxt auxB] := by
  have h1 : nxt tOwner = 0 := h.zero (by decide) (by decide)
  have h2 : nxt tLeaf = 0 := h.zero (by decide) (by decide)
  have h3 : nxt tMerkle = 0 := h.zero (by decide) (by decide)
  have h4 : nxt tNullifier = 1 := h.one (by decide)
  funext i
  fin_cases i <;> simp [boundary, absorb, h1, h2, h3, h4]

end

/-! ## Rows of a satisfying trace -/

theorem boolean_iff (b : BaseElement) : b * b - b = 0 ↔ b = 0 ∨ b = 1 := by
  rw [show b * b - b = b * (b - 1) by ring, mul_eq_zero, sub_eq_zero]

/-- Three booleans of the field that sum to zero are zero. -/
theorem booleans_eq_zero {a b c : BaseElement} (ha : a = 0 ∨ a = 1) (hb : b = 0 ∨ b = 1) (hc : c = 0 ∨ c = 1)
    (h : a + b + c = 0) : a = 0 ∧ b = 0 ∧ c = 0 := by
  have h1 : (1 : BaseElement) ≠ 0 := by decide
  have h2 : (1 + 1 : BaseElement) ≠ 0 := by decide
  have h3 : (1 + 1 + 1 : BaseElement) ≠ 0 := by decide
  rcases ha with rfl | rfl <;> rcases hb with rfl | rfl <;> rcases hc with rfl | rfl <;> simp_all

/-- Boolean range-check bits weigh a natural number below `2^32`. -/
theorem weighted_of_bits {r : Row BaseElement} (hb : ∀ i, r (rcBit i) = 0 ∨ r (rcBit i) = 1) :
    ∃ n < 2 ^ 32, weighted r = BaseElement.new n := by
  refine ⟨∑ i : Fin 32, if r (rcBit i) = 1 then 2 ^ i.val else 0, ?_, ?_⟩
  · calc (∑ i : Fin 32, if r (rcBit i) = 1 then 2 ^ i.val else 0) ≤ ∑ i : Fin 32, 2 ^ i.val :=
          Finset.sum_le_sum fun i _ => by split <;> simp
      _ < 2 ^ 32 := by decide
  · unfold weighted BaseElement.new
    rw [Nat.cast_sum]
    refine Finset.sum_congr rfl fun i _ => ?_
    rcases hb i with h0 | h1
    · rw [h0, zero_mul, if_neg zero_ne_one, Nat.cast_zero]
    · rw [h1, one_mul, if_pos rfl, Nat.one_shiftLeft]; rfl

theorem mem_typeColumns {c : Fin 50} : c ∈ typeColumns ↔ c = tOwner ∨ c = tLeaf ∨ c = tMerkle ∨ c = tNullifier := by
  simp [typeColumns]

/-- Boolean selectors that sum to one with one of them set are its one-hot vector. -/
theorem hasType_of_sum {r : Row BaseElement} {col : Fin 50} (hcol : col ∈ typeColumns)
    (hb : ∀ c ∈ typeColumns, r c = 0 ∨ r c = 1) (hsum : r tOwner + r tLeaf + r tMerkle + r tNullifier = 1)
    (h1 : r col = 1) : HasType r col := by
  have b1 := hb tOwner (by decide); have b2 := hb tLeaf (by decide)
  have b3 := hb tMerkle (by decide); have b4 := hb tNullifier (by decide)
  intro c hc
  by_cases hne : c = col
  · rw [if_pos hne, hne, h1]
  rw [if_neg hne]
  rw [mem_typeColumns] at hc hcol
  rcases hcol with rfl | rfl | rfl | rfl <;> rw [h1] at hsum
  · obtain ⟨e1, e2, e3⟩ := booleans_eq_zero b2 b3 b4 (by linear_combination hsum)
    rcases hc with rfl | rfl | rfl | rfl
    exacts [absurd rfl hne, e1, e2, e3]
  · obtain ⟨e1, e2, e3⟩ := booleans_eq_zero b1 b3 b4 (by linear_combination hsum)
    rcases hc with rfl | rfl | rfl | rfl
    exacts [e1, absurd rfl hne, e2, e3]
  · obtain ⟨e1, e2, e3⟩ := booleans_eq_zero b1 b2 b4 (by linear_combination hsum)
    rcases hc with rfl | rfl | rfl | rfl
    exacts [e1, e2, absurd rfl hne, e3]
  · obtain ⟨e1, e2, e3⟩ := booleans_eq_zero b1 b2 b3 (by linear_combination hsum)
    rcases hc with rfl | rfl | rfl | rfl
    exacts [e1, e2, e3, absurd rfl hne]

theorem jobTypeColumn_mem (job : ℕ) : jobTypeColumn job ∈ typeColumns := by
  unfold jobTypeColumn; split_ifs <;> decide

theorem jobTypeColumn_bounds (job : ℕ) : 14 ≤ (jobTypeColumn job).val ∧ (jobTypeColumn job).val < 18 := by
  unfold jobTypeColumn; split_ifs <;> decide

/-- Merkle and padding jobs are typed as Merkle steps. -/
theorem jobTypeColumn_merkle {job : ℕ} (h : 2 ≤ job) (hn : job ≠ 27) : jobTypeColumn job = tMerkle := by
  have h0 : job ≠ jobOwner := by rw [show jobOwner = 0 from rfl]; omega
  have h1 : job ≠ jobLeaf := by rw [show jobLeaf = 1 from rfl]; omega
  have h2 : job ≠ jobNullifier := hn
  unfold jobTypeColumn
  rw [if_neg h0, if_neg h1, if_neg h2, ite_self]

section

variable {pubInputs : PublicInputs} {t : TraceTable}

/-- The lanes of a row. -/
def TraceTable.lanes (t : TraceTable) (i : ℕ) : Lanes BaseElement := fun j => t.row i (stateCol j)

theorem lanes_round {i : ℕ} (h : TransitionHolds pubInputs t i) (hi : i % 8 ≠ 7) :
    t.lanes (i + 1) = applyRound (t.lanes i) (roundConstants (Fin.ofNat 8 i)) := by
  have hok := ((transitionHolds_iff pubInputs t i).1 h).lanes
  rw [if_neg hi] at hok
  funext lane
  have := hok lane
  rwa [sub_zero, one_mul, zero_mul, add_zero] at this

theorem lanes_boundary {i : ℕ} (h : TransitionHolds pubInputs t i) (hi : i % 8 = 7) :
    t.lanes (i + 1) = boundary (t.row i) (t.row (i + 1)) := by
  have hok := ((transitionHolds_iff pubInputs t i).1 h).lanes
  rw [if_pos hi] at hok
  funext lane
  have := hok lane
  rwa [sub_self, zero_mul, one_mul, zero_add] at this

/-- The digest on the last row of a job is that of the lanes on its first row. -/
theorem lanes_in_job {job : ℕ} (h : ∀ r < 7, TransitionHolds pubInputs t (8 * job + r)) :
    ∀ r ≤ 7, t.lanes (8 * job + r) = runRounds r (t.lanes (8 * job))
  | 0, _ => rfl
  | r + 1, hr => by
    rw [← Nat.add_assoc, lanes_round (h r (by omega)) (by omega), lanes_in_job h r (by omega), runRounds]
    congr 2
    exact Fin.ext (by simp [Nat.add_mod])

variable (h : Satisfies pubInputs t)

include h

theorem held_constant : ∀ i ≤ 255, t.row i heldSecret = t.row 0 heldSecret ∧ t.row i heldPid = t.row 0 heldPid
  | 0, _ => ⟨rfl, rfl⟩
  | i + 1, hi => by
    have hok := (transitionHolds_iff pubInputs t i).1 (h.transitions i (by norm_num; omega))
    have ih := held_constant i (by omega)
    exact ⟨hok.secret.trans ih.1, hok.pid.trans ih.2⟩

theorem type_asserted (job : ℕ) (hj : job < 32) : t.row (8 * job) (jobTypeColumn job) = 1 := by
  have := h.assertions ⟨jobTypeColumn job, jobStartRow job, 1⟩
    (List.mem_append_right _ (List.mem_map.2 ⟨job, List.mem_range.2 hj, rfl⟩))
  rwa [jobStartRow, Nat.mul_comm] at this

/-- No job can be relabelled: the selectors on its first row are the one-hot vector of its type. -/
theorem hasType_job (job : ℕ) (hj : job < 32) : HasType (t.row (8 * job)) (jobTypeColumn job) := by
  have hok := (transitionHolds_iff pubInputs t (8 * job)).1 (h.transitions _ (by norm_num; omega))
  rw [if_pos (by omega)] at hok
  have hbits : ∀ c ∈ typeColumns, t.row (8 * job) c = 0 ∨ t.row (8 * job) c = 1 := by
    intro c hc
    rw [mem_typeColumns] at hc
    rw [← boolean_iff]
    rcases hc with rfl | rfl | rfl | rfl
    exacts [by simpa using hok.ownerBit, by simpa using hok.leafBit, by simpa using hok.merkleBit,
      by simpa using hok.nullifierBit]
  refine hasType_of_sum (jobTypeColumn_mem job) hbits ?_ (type_asserted h job hj)
  have hsum := hok.oneHot
  rw [one_mul] at hsum
  exact sub_eq_zero.1 hsum

/-- The lanes a job other than the first starts from are selected from the row before it. -/
theorem lanes_job_start (job : ℕ) (hj : job + 1 < 32) :
    t.lanes (8 * (job + 1)) = boundary (t.row (8 * job + 7)) (t.row (8 * (job + 1))) := by
  have := lanes_boundary (h.transitions (8 * job + 7) (by norm_num; omega)) (by omega)
  rwa [show 8 * job + 7 + 1 = 8 * (job + 1) by omega] at this

theorem digest_job (job : ℕ) (hj : job < 32) :
    t.row (8 * job + 7) s0 = runRounds 7 (t.lanes (8 * job)) 0 := by
  rw [← lanes_in_job (fun r hr => h.transitions _ (by norm_num; omega)) 7 le_rfl]
  rfl

/-! ## The jobs of the statement -/

/-- The leaf job absorbs the registry id, the digest of job 0, a zero encumbrance flag, license
status 1 and the expiry in `auxD`. -/
theorem leaf_lanes : t.lanes 8 =
    absorb [BaseElement.new domainLeaf, pubInputs.registryId, t.row 7 s0, 0, 1, t.row 8 auxD] := by
  have hA : t.row 8 auxA = pubInputs.registryId :=
    h.assertions ⟨auxA, rowLeafFirst, pubInputs.registryId⟩ (by simp [getAssertions])
  have hB : t.row 8 auxB = 0 := h.assertions ⟨auxB, rowLeafFirst, 0⟩ (by simp [getAssertions])
  have hC : t.row 8 auxC = 1 := h.assertions ⟨auxC, rowLeafFirst, 1⟩ (by simp [getAssertions])
  have hlanes := (lanes_job_start h 0 (by omega)).trans (boundary_leaf (hasType_job h 1 (by omega)))
  simp only [Nat.mul_zero, Nat.zero_add, Nat.mul_one, hA, hB, hC] at hlanes
  exact hlanes

theorem leaf_digest : t.row 15 s0 =
    hash [BaseElement.new domainLeaf, pubInputs.registryId, t.row 7 s0, 0, 1, t.row 8 auxD] := by
  have hd := digest_job h 1 (by omega)
  rw [Nat.mul_one, leaf_lanes h, ← hash_def] at hd
  exact hd

/-- The sibling and direction bit of the Merkle job at a level. -/
def TraceTable.merkleStep (t : TraceTable) (level : ℕ) : BaseElement × Bool :=
  (t.row (jobStartRow (jobMerkleFirst + level)) auxA, t.row (jobStartRow (jobMerkleFirst + level)) auxB = 1)

theorem merkle_bit {level : ℕ} (hl : level < 25) :
    t.row (8 * (2 + level)) auxB = 0 ∨ t.row (8 * (2 + level)) auxB = 1 := by
  have hok := (transitionHolds_iff pubInputs t (8 * (2 + level))).1 (h.transitions _ (by norm_num; omega))
  rw [if_pos (by omega)] at hok
  have ht := hasType_job h (2 + level) (by omega)
  rw [jobTypeColumn_merkle (by omega) (by omega)] at ht
  have h1 : t.row (8 * (2 + level)) tMerkle = 1 := ht.one (by decide)
  have hd := hok.directionBit
  rwa [h1, one_mul, one_mul, boolean_iff] at hd

/-- A Merkle job absorbs the digest of the job before it and its sibling, in the order of its bit. -/
theorem merkle_lanes {level : ℕ} (hl : level < 25) : t.lanes (8 * (2 + level)) =
    absorb [BaseElement.new domainNode,
      if (t.merkleStep level).2 then (t.merkleStep level).1 else t.row (8 * (1 + level) + 7) s0,
      if (t.merkleStep level).2 then t.row (8 * (1 + level) + 7) s0 else (t.merkleStep level).1] := by
  have ht := hasType_job h (1 + level + 1) (by omega)
  rw [jobTypeColumn_merkle (by omega) (by omega)] at ht
  have hlanes := (lanes_job_start h (1 + level) (by omega)).trans (boundary_merkle ht)
  rw [show 1 + level + 1 = 2 + level by omega] at hlanes
  rw [hlanes]
  unfold TraceTable.merkleStep
  rw [show jobStartRow (jobMerkleFirst + level) = 8 * (2 + level) from Nat.mul_comm _ _]
  rcases merkle_bit h hl with hb | hb
  · rw [hb]
    simp only [zero_mul, sub_zero, one_mul, zero_add, zero_ne_one, decide_false, Bool.false_eq_true, if_false]
  · rw [hb]
    simp only [one_mul, sub_self, zero_mul, add_zero, decide_true, if_true]

/-- A Merkle job hashes what it absorbs. -/
theorem merkle_join {level : ℕ} (hl : level < 25) :
    t.row (8 * (2 + level) + 7) s0 =
      join nodeHash (t.merkleStep level).2 (t.row (8 * (1 + level) + 7) s0) (t.merkleStep level).1 := by
  have hd := digest_job h (2 + level) (by omega)
  rw [merkle_lanes h hl, ← nodeHash_def] at hd
  rw [hd]
  unfold join
  cases (t.merkleStep level).2 <;> rfl

/-- The digests of the Merkle jobs fold the first siblings over the leaf. -/
theorem merkle_fold : ∀ n ≤ 25, t.row (8 * (1 + n) + 7) s0 =
    foldPath nodeHash (t.row 15 s0) ((List.range n).map t.merkleStep)
  | 0, _ => rfl
  | n + 1, hn => by
    rw [List.range_succ, List.map_append, foldPath_append, ← merkle_fold n (by omega)]
    rw [show 1 + (n + 1) = 2 + n by omega]
    exact merkle_join h (by omega)

theorem merkle_root : foldPath nodeHash (t.row 15 s0) ((List.range 25).map t.merkleStep) = pubInputs.merkleRoot := by
  rw [← merkle_fold h 25 le_rfl]
  exact h.assertions ⟨s0, rowMerkleLastOutput, pubInputs.merkleRoot⟩ (by simp [getAssertions])

theorem nullifier_digest : pubInputs.nullifier =
    hash [BaseElement.new domainNullifier, t.row 0 heldSecret, t.row 0 heldPid, pubInputs.purpose,
      pubInputs.requestNonce] := by
  have hA : t.row 216 auxA = pubInputs.purpose :=
    h.assertions ⟨auxA, rowNullifierFirst, pubInputs.purpose⟩ (by simp [getAssertions])
  have hB : t.row 216 auxB = pubInputs.requestNonce :=
    h.assertions ⟨auxB, rowNullifierFirst, pubInputs.requestNonce⟩ (by simp [getAssertions])
  have hN : t.row 223 s0 = pubInputs.nullifier :=
    h.assertions ⟨s0, rowNullifierOutput, pubInputs.nullifier⟩ (by simp [getAssertions])
  obtain ⟨hs, hp⟩ := held_constant h 215 (by omega)
  have hlanes := (lanes_job_start h 26 (by omega)).trans
    (boundary_nullifier (hasType_job h 27 (by omega)))
  have hd := digest_job h 27 (by omega)
  rw [hlanes, ← hash_def] at hd
  simp only [Nat.reduceMul, Nat.reduceAdd, hA, hB, hN, hs, hp] at hd
  exact hd

/-- The expiry in the leaf exceeds the public timestamp by at most `2^32`. -/
theorem expiry_range : ∃ n < 2 ^ 32, t.row 8 auxD = pubInputs.currentTimestamp + 1 + BaseElement.new n := by
  have hok := (transitionHolds_iff pubInputs t 8).1 (h.transitions 8 (by norm_num))
  rw [if_pos rfl] at hok
  have hL : t.row 8 tLeaf = 1 := (hasType_job h 1 (by omega)).one (by decide)
  obtain ⟨n, hn, hw⟩ := weighted_of_bits (r := t.row 8) fun i => (boolean_iff _).1 (hok.rangeBit i)
  refine ⟨n, hn, ?_⟩
  have hs := hok.rangeSum
  rw [hL, one_mul, one_mul, hw] at hs
  have hs : BaseElement.new n - (t.row 8 auxD - pubInputs.currentTimestamp - 1) = 0 := hs
  linear_combination -hs

end

end Yaqeen.Air
