/-
Tables laid out job by job: each job starts from the inputs its type selects and follows the
rounds of the permutation. Such a table satisfies every transition but the last whatever lanes its
first job starts from, and the last one too when these are the owner job's own inputs.
-/
import Yaqeen.Air.Jobs

namespace Yaqeen.Air

open HashTree

/-- The column of an auxiliary value. -/
def auxCol (k : Fin 4) : Fin 50 := ⟨8 + k.val, by omega⟩

/-- The lanes a job of a type starts from, after a job with digest `prev`. -/
def jobInput (col : Fin 50) (secret pid prev : BaseElement) (aux : Fin 4 → BaseElement) : Lanes BaseElement :=
  if col = tOwner then absorb [BaseElement.new domainOwnerCommitment, secret, pid]
  else if col = tLeaf then absorb [BaseElement.new domainLeaf, aux 0, prev, aux 1, aux 2, aux 3]
  else if col = tMerkle then
    absorb [BaseElement.new domainNode, aux 1 * aux 0 + (1 - aux 1) * prev, aux 1 * prev + (1 - aux 1) * aux 0]
  else absorb [BaseElement.new domainNullifier, secret, pid, aux 0, aux 1]

theorem boundary_of_type {cur nxt : Row BaseElement} {col : Fin 50} (hc : col ∈ typeColumns) (h : HasType nxt col) :
    boundary cur nxt = jobInput col (cur heldSecret) (cur heldPid) (cur s0) fun k => nxt (auxCol k) := by
  rw [mem_typeColumns] at hc
  rcases hc with rfl | rfl | rfl | rfl
  exacts [boundary_owner h, boundary_leaf h, boundary_merkle h, boundary_nullifier h]

/-- The values a table is laid out from: the held pair, the lanes its first job starts from and the
auxiliary values of every job. -/
structure JobData where
  secret : BaseElement
  pid : BaseElement
  first : Lanes BaseElement
  aux : ℕ → Fin 4 → BaseElement

namespace JobData

def input (d : JobData) : ℕ → Lanes BaseElement
  | 0 => d.first
  | job + 1 =>
    jobInput (jobTypeColumn (job + 1)) d.secret d.pid (runRounds 7 (d.input job) 0) (d.aux (job + 1))

def digest (d : JobData) (job : ℕ) : BaseElement := runRounds 7 (d.input job) 0

/-- The value at a row and column when the first `jobs` jobs are laid out, with the range-check
bits `rc` on the first row of the leaf job. -/
def cell (d : JobData) (rc : Fin 32 → BaseElement) (jobs row : ℕ) (col : Fin 50) : BaseElement :=
  if col = heldSecret then d.secret
  else if col = heldPid then d.pid
  else if h : 18 ≤ col.val then (if row = 8 then rc ⟨col.val - 18, by omega⟩ else 0)
  else if jobs ≤ row / 8 then 0
  else if h : col.val < 8 then runRounds (row % 8) (d.input (row / 8)) ⟨col.val, h⟩
  else if h : col.val < 12 then (if row % 8 = 0 then d.aux (row / 8) ⟨col.val - 8, by omega⟩ else 0)
  else if col = jobTypeColumn (row / 8) then 1
  else 0

def table (d : JobData) (rc : Fin 32 → BaseElement) (jobs : ℕ) : TraceTable := fun row => d.cell rc jobs row.val

/-! ## Cells -/

section

variable (d : JobData) (rc : Fin 32 → BaseElement)

theorem row_table (jobs : ℕ) {i : ℕ} (hi : i < 256) : (d.table rc jobs).row i = d.cell rc jobs i := by
  unfold TraceTable.row table
  rw [Fin.val_ofNat, Nat.mod_eq_of_lt hi]

theorem cell_lane {jobs row : ℕ} (h : row / 8 < jobs) (lane : Fin 8) :
    d.cell rc jobs row (stateCol lane) = runRounds (row % 8) (d.input (row / 8)) lane := by
  have h1 : stateCol lane ≠ heldSecret := by revert lane; decide
  have h2 : stateCol lane ≠ heldPid := by revert lane; decide
  unfold cell
  rw [if_neg h1, if_neg h2, dif_neg (by revert lane; decide), if_neg (by omega), dif_pos (by revert lane; decide)]
  rfl

theorem cell_aux {jobs row : ℕ} (h : row / 8 < jobs) (h0 : row % 8 = 0) (k : Fin 4) :
    d.cell rc jobs row (auxCol k) = d.aux (row / 8) k := by
  have h1 : auxCol k ≠ heldSecret := by revert k; decide
  have h2 : auxCol k ≠ heldPid := by revert k; decide
  unfold cell
  rw [if_neg h1, if_neg h2, dif_neg (by revert k; decide), if_neg (by omega), dif_neg (by revert k; decide),
    dif_pos (by revert k; decide), if_pos h0]
  simp [auxCol]

theorem cell_type {jobs row : ℕ} (h : row / 8 < jobs) {c : Fin 50} (hc : c ∈ typeColumns) :
    d.cell rc jobs row c = if c = jobTypeColumn (row / 8) then 1 else 0 := by
  unfold cell
  rw [mem_typeColumns] at hc
  rcases hc with rfl | rfl | rfl | rfl <;>
    rw [if_neg (by decide), if_neg (by decide), dif_neg (by decide), if_neg (by omega), dif_neg (by decide),
      dif_neg (by decide)]

theorem cell_rc {jobs row : ℕ} (i : Fin 32) :
    d.cell rc jobs row (rcBit i) = if row = 8 then rc i else 0 := by
  have h1 : rcBit i ≠ heldSecret := by revert i; decide
  have h2 : rcBit i ≠ heldPid := by revert i; decide
  unfold cell
  rw [if_neg h1, if_neg h2, dif_pos (by simp [rcBit])]
  simp [rcBit]

theorem cell_hasType {row : ℕ} (h : row < 256) : HasType (d.cell rc 32 row) (jobTypeColumn (row / 8)) :=
  fun _ hc => d.cell_type rc (by omega) hc

theorem cell_digest (job : ℕ) (h : job < 32) : d.cell rc 32 (8 * job + 7) s0 = d.digest job := by
  have := d.cell_lane rc (show (8 * job + 7) / 8 < 32 by omega) 0
  rw [show (8 * job + 7) % 8 = 7 by omega, show (8 * job + 7) / 8 = job by omega] at this
  exact this

end

/-! ## Transitions -/

/-- What the values of a table have to meet: the flags of the leaf job, boolean directions and
range-check bits, and an expiry the bits account for. -/
structure Fits (d : JobData) (rc : Fin 32 → BaseElement) (currentTimestamp : BaseElement) : Prop where
  unencumbered : d.aux 1 1 = 0
  licensed : d.aux 1 2 = 1
  direction : ∀ job < 32, jobTypeColumn job = tMerkle → d.aux job 1 = 0 ∨ d.aux job 1 = 1
  bits : ∀ i, rc i = 0 ∨ rc i = 1
  sum : ∑ i : Fin 32, rc i * BaseElement.new (1 <<< i.val) = d.aux 1 3 - currentTimestamp - 1

section

variable (d : JobData) (rc : Fin 32 → BaseElement)

/-- The last row of a job leads to the inputs of the next; the last job's leads to the first only
if the owner job starts from its own inputs. -/
theorem input_boundary {i : ℕ} (hi : i < 256) (h7 : i % 8 = 7)
    (hlast : i = 255 → d.first = absorb [BaseElement.new domainOwnerCommitment, d.secret, d.pid]) (lane : Fin 8) :
    d.cell rc 32 ((i + 1) % 256) (stateCol lane) =
      boundary (d.cell rc 32 i) (d.cell rc 32 ((i + 1) % 256)) lane := by
  have hj : (i + 1) % 256 < 256 := Nat.mod_lt _ (by omega)
  rw [boundary_of_type (jobTypeColumn_mem _) (d.cell_hasType rc hj), cell_lane d rc (by omega),
    show (i + 1) % 256 % 8 = 0 by omega]
  by_cases h255 : i = 255
  · subst h255
    show d.first lane = _
    rw [hlast rfl]
    rfl
  · have hdig : d.cell rc 32 i s0 = d.digest (i / 8) := by
      have := d.cell_digest rc (i / 8) (by omega)
      rwa [show 8 * (i / 8) + 7 = i by omega] at this
    have haux : (fun k => d.cell rc 32 ((i + 1) % 256) (auxCol k)) = d.aux (i / 8 + 1) := by
      funext k
      rw [cell_aux d rc (by omega) (by omega), show (i + 1) % 256 / 8 = i / 8 + 1 by omega]
    rw [hdig, haux, show (i + 1) % 256 / 8 = i / 8 + 1 by omega]
    rfl

theorem input_round {i : ℕ} (hi : i < 256) (h7 : i % 8 ≠ 7) (lane : Fin 8) :
    d.cell rc 32 ((i + 1) % 256) (stateCol lane) =
      applyRound (fun j => d.cell rc 32 i (stateCol j)) (roundConstants (Fin.ofNat 8 i)) lane := by
  rw [cell_lane d rc (by omega), show (i + 1) % 256 % 8 = i % 8 + 1 by omega,
    show (i + 1) % 256 / 8 = i / 8 by omega]
  have hcur : (fun j => d.cell rc 32 i (stateCol j)) = runRounds (i % 8) (d.input (i / 8)) := by
    funext j
    exact d.cell_lane rc (by omega) j
  rw [hcur, runRounds]
  congr 2
  exact Fin.ext (by simp)

/-- A selector of a row is a boolean. -/
theorem cell_type_bool {row : ℕ} (h : row < 256) {c : Fin 50} (hc : c ∈ typeColumns) :
    d.cell rc 32 row c * d.cell rc 32 row c - d.cell rc 32 row c = 0 := by
  rw [boolean_iff, d.cell_type rc (by omega) hc]
  split
  · exact .inr rfl
  · exact .inl rfl

theorem cell_type_sum {row : ℕ} (h : row < 256) :
    d.cell rc 32 row tOwner + d.cell rc 32 row tLeaf + d.cell rc 32 row tMerkle + d.cell rc 32 row tNullifier - 1 =
      0 := by
  have ht := d.cell_hasType rc h
  have hm := jobTypeColumn_mem (row / 8)
  rw [ht tOwner (by decide), ht tLeaf (by decide), ht tMerkle (by decide), ht tNullifier (by decide)]
  rw [mem_typeColumns] at hm
  rcases hm with h1 | h1 | h1 | h1 <;> rw [h1] <;> decide

/-- A table whose values fit satisfies every transition but the last, and the last one as well when
its first job starts from the owner inputs. -/
theorem transition_of_fits {pubInputs : PublicInputs} {d : JobData} {rc : Fin 32 → BaseElement}
    (hf : d.Fits rc pubInputs.currentTimestamp) {i : ℕ} (hi : i < 256)
    (hlast : i = 255 → d.first = absorb [BaseElement.new domainOwnerCommitment, d.secret, d.pid]) :
    TransitionHolds pubInputs (d.table rc 32) i := by
  have hnext : (d.table rc 32).row (i + 1) = d.cell rc 32 ((i + 1) % 256) := rfl
  rw [transitionHolds_iff, row_table d rc 32 hi, hnext]
  have hbool {c : Fin 50} (hc : c ∈ typeColumns) := d.cell_type_bool rc hi hc
  refine ⟨fun lane => ?_, rfl, rfl, ?_, ?_, ?_, ?_, ?_, ?_, fun k => ?_, ?_⟩
  · by_cases h7 : i % 8 = 7
    · rw [if_pos h7, sub_self, zero_mul, zero_add, one_mul]
      exact d.input_boundary rc hi h7 hlast lane
    · rw [if_neg h7, sub_zero, one_mul, zero_mul, add_zero]
      exact d.input_round rc hi h7 lane
  · rw [hbool (by decide), mul_zero]
  · rw [hbool (by decide), mul_zero]
  · rw [hbool (by decide), mul_zero]
  · rw [hbool (by decide), mul_zero]
  · rw [d.cell_type_sum rc hi, mul_zero]
  · -- the direction bit matters on the first row of a Merkle or padding job
    rw [d.cell_type rc (by omega) (by decide)]
    by_cases h0 : i % 8 = 0
    · by_cases hm : tMerkle = jobTypeColumn (i / 8)
      · have hb := d.cell_aux rc (show i / 8 < 32 by omega) h0 1
        rw [show auxCol 1 = auxB from rfl] at hb
        rw [hb, (boolean_iff _).2 (hf.direction _ (by omega) hm.symm), mul_zero]
      · rw [if_neg hm, mul_zero, zero_mul]
    · rw [if_neg h0, zero_mul, zero_mul]
  · rw [boolean_iff, d.cell_rc rc]
    split
    · exact hf.bits k
    · exact .inl rfl
  · rw [d.cell_type rc (by omega) (by decide)]
    by_cases h8 : i = 8
    · subst h8
      have hw : weighted (d.cell rc 32 8) = ∑ i : Fin 32, rc i * BaseElement.new (1 <<< i.val) := by
        unfold weighted
        exact Finset.sum_congr rfl fun i _ => by rw [cell_rc, if_pos rfl]; rfl
      have hx : d.cell rc 32 8 auxD = d.aux 1 3 := d.cell_aux rc (by omega) (by omega) 3
      rw [hw, hx, hf.sum]
      show _ * (d.aux 1 3 - pubInputs.currentTimestamp - 1 - (d.aux 1 3 - pubInputs.currentTimestamp - 1)) = 0
      rw [sub_self, mul_zero]
    · by_cases h0 : i % 8 = 0
      · have hL : tLeaf ≠ jobTypeColumn (i / 8) := by
          have hj : ∀ job : Fin 32, tLeaf = jobTypeColumn job.val → job.val = 1 := by decide
          intro hc
          have := hj ⟨i / 8, by omega⟩ hc
          simp only at this
          omega
        rw [if_neg hL, mul_zero, zero_mul]
      · rw [if_neg h0, zero_mul, zero_mul]

/-! ## Assertions -/

/-- The public inputs a table shows. -/
def publicInputs (d : JobData) (currentTimestamp : BaseElement) : PublicInputs where
  registryId := d.aux 1 0
  merkleRoot := d.digest 26
  purpose := d.aux 27 0
  requestNonce := d.aux 27 1
  currentTimestamp := currentTimestamp
  nullifier := d.digest 27

/-- The auxiliary values and the digest of a job, in the full table. -/
theorem row_aux (d : JobData) (rc : Fin 32 → BaseElement) (job : ℕ) (hj : job < 32) (k : Fin 4) :
    (d.table rc 32).row (8 * job) (auxCol k) = d.aux job k := by
  rw [row_table d rc 32 (by omega), cell_aux d rc (by omega) (by omega), show 8 * job / 8 = job by omega]

theorem row_digest (d : JobData) (rc : Fin 32 → BaseElement) (job : ℕ) (hj : job < 32) :
    (d.table rc 32).row (8 * job + 7) s0 = d.digest job := by
  rw [row_table d rc 32 (by omega), d.cell_digest rc job hj]

theorem assertions_of_fits {currentTimestamp : BaseElement} {d : JobData} {rc : Fin 32 → BaseElement}
    (hf : d.Fits rc currentTimestamp) : AssertionsHold (d.publicInputs currentTimestamp) (d.table rc 32) := by
  unfold AssertionsHold getAssertions
  rw [List.forall_mem_append]
  constructor
  · simp only [List.forall_mem_cons, List.not_mem_nil, false_implies, implies_true, and_true]
    exact ⟨row_aux d rc 1 (by omega) 0, (row_aux d rc 1 (by omega) 1).trans hf.unencumbered,
      (row_aux d rc 1 (by omega) 2).trans hf.licensed, row_digest d rc 26 (by omega), row_aux d rc 27 (by omega) 0,
      row_aux d rc 27 (by omega) 1, row_digest d rc 27 (by omega)⟩
  · intro a ha
    obtain ⟨job, hj, rfl⟩ := List.mem_map.1 ha
    have hj : job < 32 := List.mem_range.1 hj
    show (d.table rc 32).row (job * 8) (jobTypeColumn job) = 1
    rw [Nat.mul_comm, row_table d rc 32 (by omega), d.cell_type rc (by omega) (jobTypeColumn_mem job),
      show 8 * job / 8 = job by omega, if_pos rfl]

/-- A table whose values fit is accepted, whatever lanes its first job starts from. -/
theorem satisfies_of_fits {currentTimestamp : BaseElement} {d : JobData} {rc : Fin 32 → BaseElement}
    (hf : d.Fits rc currentTimestamp) : Satisfies (d.publicInputs currentTimestamp) (d.table rc 32) where
  assertions := assertions_of_fits hf
  transitions i hi := transition_of_fits hf (by norm_num at hi; omega) fun h => by norm_num at hi; omega

end

end JobData

end Yaqeen.Air
