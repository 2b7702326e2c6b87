/-
Accepted tables cell by cell. The enforced constraints and the assertions say that the lanes follow the
rounds, that each job but the first starts from the inputs its type selects, and nothing of the cells
they never read. So it is known exactly which single cells of an accepted table can be changed.
-/
import Yaqeen.Air.Permutation
import Yaqeen.Air.Soundness

namespace Yaqeen.Air

/-! ## Satisfaction, row by row -/

/-- What an accepted table looks like. -/
structure Layout (pubInputs : PublicInputs) (t : TraceTable) : Prop where
  assertions : AssertionsHold pubInputs t
  round : ∀ i < 255, i % 8 ≠ 7 → t.lanes (i + 1) = applyRound (t.lanes i) (roundConstants (Fin.ofNat 8 i))
  start : ∀ job < 31, t.lanes (8 * (job + 1)) =
    jobInput (jobTypeColumn (job + 1)) (t.row (8 * job + 7) heldSecret) (t.row (8 * job + 7) heldPid)
      (t.row (8 * job + 7) s0) fun k => t.row (8 * (job + 1)) (auxCol k)
  secret : ∀ i < 255, t.row (i + 1) heldSecret = t.row i heldSecret
  pid : ∀ i < 255, t.row (i + 1) heldPid = t.row i heldPid
  types : ∀ job < 32, HasType (t.row (8 * job)) (jobTypeColumn job)
  direction : ∀ job < 32, jobTypeColumn job = tMerkle → t.row (8 * job) auxB = 0 ∨ t.row (8 * job) auxB = 1
  bits : ∀ i < 255, ∀ k, t.row i (rcBit k) = 0 ∨ t.row i (rcBit k) = 1
  sum : weighted (t.row 8) = t.row 8 auxD - pubInputs.currentTimestamp - 1

section

variable {pubInputs : PublicInputs} {t : TraceTable}

theorem layout_of_satisfies (h : Satisfies pubInputs t) : Layout pubInputs t := by
  have hok (i : ℕ) (hi : i < 255) := (transitionHolds_iff pubInputs t i).1 (h.transitions i hi)
  refine ⟨h.assertions, fun i hi h7 => lanes_round (h.transitions i hi) h7, fun job hj => ?_,
    fun i hi => (hok i hi).secret, fun i hi => (hok i hi).pid, hasType_job h, fun job hj hm => ?_,
    fun i hi k => (boolean_iff _).1 ((hok i hi).rangeBit k), ?_⟩
  · rw [lanes_job_start h job (by omega), boundary_of_type (jobTypeColumn_mem _) (hasType_job h (job + 1) (by omega))]
  · have hd := (hok (8 * job) (by omega)).directionBit
    have hone : t.row (8 * job) tMerkle = 1 := hm ▸ (hasType_job h job hj).one (jobTypeColumn_mem job)
    rwa [if_pos (by omega), hone, one_mul, one_mul, boolean_iff] at hd
  · have hs := (hok 8 (by omega)).rangeSum
    have hone : t.row 8 tLeaf = 1 := (hasType_job h 1 (by omega)).one (by decide)
    rw [if_pos rfl, hone, one_mul, one_mul] at hs
    exact sub_eq_zero.1 hs

/-- On the first row of a job the selectors are booleans that sum to one. -/
theorem HasType.bool {r : Row BaseElement} {col c : Fin 50} (h : HasType r col) (hc : c ∈ typeColumns) :
    r c * r c - r c = 0 := by
  rw [boolean_iff, h c hc]
  split
  · exact .inr rfl
  · exact .inl rfl

theorem HasType.sum {r : Row BaseElement} {col : Fin 50} (h : HasType r col) (hcol : col ∈ typeColumns) :
    r tOwner + r tLeaf + r tMerkle + r tNullifier - 1 = 0 := by
  rw [h tOwner (by decide), h tLeaf (by decide), h tMerkle (by decide), h tNullifier (by decide)]
  rw [mem_typeColumns] at hcol
  rcases hcol with rfl | rfl | rfl | rfl <;> decide

/-- The job of the first row of a job. -/
theorem row_of_first {i : ℕ} (h0 : i % 8 = 0) : i = 8 * (i / 8) := by omega

/-- A job typed as the leaf job is the leaf job. -/
theorem jobTypeColumn_leaf {job : ℕ} (hj : job < 32) (h : jobTypeColumn job = tLeaf) : job = 1 := by
  have hall : ∀ job : Fin 32, jobTypeColumn job.val = tLeaf → job.val = 1 := by decide
  exact hall ⟨job, hj⟩ h

theorem Layout.satisfies (h : Layout pubInputs t) : Satisfies pubInputs t := by
  refine ⟨h.assertions, fun i hi => ?_⟩
  have hi : i < 255 := hi
  rw [transitionHolds_iff]
  have htype (h0 : i % 8 = 0) : HasType (t.row i) (jobTypeColumn (i / 8)) := by
    have ht := h.types (i / 8) (by omega)
    rwa [← row_of_first h0] at ht
  -- what only first rows are held to
  have hfirst {x : BaseElement} (hx : i % 8 = 0 → x = 0) : (if i % 8 = 0 then (1 : BaseElement) else 0) * x = 0 := by
    by_cases h0 : i % 8 = 0
    · rw [hx h0, mul_zero]
    · rw [if_neg h0, zero_mul]
  refine ⟨fun lane => ?_, h.secret i hi, h.pid i hi, hfirst fun h0 => (htype h0).bool (by decide),
    hfirst fun h0 => (htype h0).bool (by decide), hfirst fun h0 => (htype h0).bool (by decide),
    hfirst fun h0 => (htype h0).bool (by decide), hfirst fun h0 => (htype h0).sum (jobTypeColumn_mem _), ?_,
    fun k => (boolean_iff _).2 (h.bits i hi k), ?_⟩
  · by_cases h7 : i % 8 = 7
    · have hs := h.start (i / 8) (by omega)
      rw [show 8 * (i / 8) + 7 = i by omega, show 8 * (i / 8 + 1) = i + 1 by omega] at hs
      have ht : HasType (t.row (i + 1)) (jobTypeColumn (i / 8 + 1)) := by
        have := h.types (i / 8 + 1) (by omega)
        rwa [show 8 * (i / 8 + 1) = i + 1 by omega] at this
      rw [if_pos h7, sub_self, zero_mul, zero_add, one_mul, boundary_of_type (jobTypeColumn_mem _) ht]
      exact congrFun hs lane
    · rw [if_neg h7, sub_zero, one_mul, zero_mul, add_zero]
      exact congrFun (h.round i hi h7) lane
  · rw [mul_assoc]
    refine hfirst fun h0 => ?_
    rw [htype h0 tMerkle (by decide)]
    split
    · rename_i hm
      have hd := h.direction (i / 8) (by omega) hm.symm
      rw [← row_of_first h0] at hd
      rw [(boolean_iff _).2 hd, mul_zero]
    · rw [zero_mul]
  · rw [mul_assoc]
    refine hfirst fun h0 => ?_
    rw [htype h0 tLeaf (by decide)]
    split
    · rename_i hl
      have h8 : i = 8 := by
        have hjob : i / 8 = 1 := jobTypeColumn_leaf (by omega) hl.symm
        omega
      subst h8
      rw [h.sum]
      exact mul_eq_zero_of_right _ (sub_self _)
    · rw [zero_mul]

/-- An accepted table is one laid out so, and nothing more. -/
theorem satisfies_iff_layout : Satisfies pubInputs t ↔ Layout pubInputs t := ⟨layout_of_satisfies, Layout.satisfies⟩

end

/-! ## One changed cell -/

/-- A table with one cell changed. -/
def tamper (t : TraceTable) (r : Fin 256) (c : Fin 50) (v : BaseElement) : TraceTable := fun i j =>
  if i = r ∧ j = c then v else t i j

/-- The cells that neither an enforced constraint nor an assertion reads: auxiliary values off the first
row of a job, all those of the owner job and the last two of every job but the leaf job; selectors off
the first row of a job; and the range-check bits of the last row. -/
def Unread (r : ℕ) (c : Fin 50) : Prop :=
  (8 ≤ c.val ∧ c.val < 12 ∧ (r % 8 ≠ 0 ∨ r = 0 ∨ (10 ≤ c.val ∧ r ≠ 8))) ∨
    (14 ≤ c.val ∧ c.val < 18 ∧ r % 8 ≠ 0) ∨ (18 ≤ c.val ∧ r = 255)

/-- The changes of a cell of an accepted table that leave it accepted. -/
inductive Harmless (t : TraceTable) (r : Fin 256) (c : Fin 50) (v : BaseElement) : Prop
  | unread : Unread r.val c → Harmless t r c v
  /-- Off the leaf row a range-check bit weighs nothing. -/
  | rangeBit : 18 ≤ c.val → r.val ≠ 8 → v = 0 ∨ v = 1 → Harmless t r c v
  /-- A direction does not matter where the sibling is the digest itself. -/
  | direction : c = auxB → r.val % 8 = 0 → 0 < r.val → jobTypeColumn (r.val / 8) = tMerkle → v = 0 ∨ v = 1 →
      t.row r.val auxA = t.row (r.val - 1) s0 → Harmless t r c v

section

variable {t : TraceTable} {r : Fin 256} {c : Fin 50} {v : BaseElement}

theorem row_tamper {i : ℕ} (hi : i < 256) (c' : Fin 50) :
    (tamper t r c v).row i c' = if i = r.val ∧ c' = c then v else t.row i c' := by
  have hr : Fin.ofNat 256 i = r ↔ i = r.val := by
    rw [Fin.ext_iff, Fin.val_ofNat, Nat.mod_eq_of_lt hi]
  unfold TraceTable.row tamper
  simp only [hr]

theorem row_tamper_col {i : ℕ} (hi : i < 256) {c' : Fin 50} (h : c' ≠ c) : (tamper t r c v).row i c' = t.row i c' := by
  rw [row_tamper hi, if_neg fun hc => h hc.2]

theorem row_tamper_row {i : ℕ} (hi : i < 256) (h : i ≠ r.val) (c' : Fin 50) : (tamper t r c v).row i c' = t.row i c' := by
  rw [row_tamper hi, if_neg fun hc => h hc.1]

theorem row_tamper_self : (tamper t r c v).row r.val c = v := by
  rw [row_tamper r.isLt, if_pos ⟨rfl, rfl⟩]

/-- Only the lanes of the changed row may change, and only with a lane. -/
theorem lanes_tamper {i : ℕ} (hi : i < 256) (h : i ≠ r.val ∨ 8 ≤ c.val) : (tamper t r c v).lanes i = t.lanes i := by
  funext j
  rcases h with h | h
  · exact row_tamper_row hi h _
  · refine row_tamper_col hi fun hj => ?_
    rw [← hj] at h
    exact absurd j.isLt (not_lt.2 h)

/-! ## Cells that cannot change -/

theorem rcBit_ne_auxD (k : Fin 32) : rcBit k ≠ auxD := by
  revert k
  decide

theorem rcBit_injective : Function.Injective rcBit := by decide

theorem weight_ne_zero (k : Fin 32) : BaseElement.new (1 <<< k.val) ≠ 0 := by
  rw [Nat.one_shiftLeft]
  refine natCast_ne_zero (Nat.two_pow_pos _).ne' ?_
  calc 2 ^ k.val < 2 ^ 32 := Nat.pow_lt_pow_right (by omega) k.isLt
    _ < modulus := by norm_num [modulus]

variable {pubInputs : PublicInputs} (h : Layout pubInputs t) (h' : Layout pubInputs (tamper t r c v))

include h h'

theorem Layout.lane_rigid (hc : c.val < 8) : v = t.row r.val c := by
  have hcol : c = stateCol ⟨c.val, hc⟩ := rfl
  suffices hlanes : (tamper t r c v).lanes r.val = t.lanes r.val by
    have hlane : (tamper t r c v).row r.val c = t.row r.val c := congrFun hlanes ⟨c.val, hc⟩
    rwa [row_tamper_self] at hlane
  have hne (i : ℕ) (hi : i < 256) (hir : i ≠ r.val) : (tamper t r c v).lanes i = t.lanes i :=
    lanes_tamper hi (.inl hir)
  rcases Nat.eq_zero_or_pos r.val with h0 | hpos
  · -- nothing before row 0 binds its lanes, but the round after it is injective
    have h1 := h.round 0 (by omega) (by omega)
    have h2 := h'.round 0 (by omega) (by omega)
    rw [hne 1 (by omega) (by omega), h1] at h2
    rw [h0]
    exact ((applyRound_bijective _).1 h2).symm
  obtain ⟨i, hi⟩ : ∃ i, r.val = i + 1 := ⟨r.val - 1, by omega⟩
  by_cases h7 : i % 8 = 7
  · have h1 := h.start (i / 8) (by omega)
    have h2 := h'.start (i / 8) (by omega)
    have haux : ∀ k, (tamper t r c v).row (i + 1) (auxCol k) = t.row (i + 1) (auxCol k) := fun k =>
      row_tamper_col (by omega) fun hk => by
        rw [← hk] at hc
        exact absurd hc (not_lt.2 (Nat.le_add_right _ _))
    rw [show 8 * (i / 8 + 1) = i + 1 by omega, show 8 * (i / 8) + 7 = i by omega] at h1 h2
    simp only [haux, row_tamper_row (show i < 256 by omega) (show i ≠ r.val by omega)] at h2
    rw [hi, h1, h2]
  · have h1 := h.round i (by omega) h7
    have h2 := h'.round i (by omega) h7
    rw [hne i (by omega) (by omega)] at h2
    rw [hi, h1, h2]

theorem Layout.held_rigid (hc : c = heldSecret ∨ c = heldPid) : v = t.row r.val c := by
  have hstep : ∀ {t : TraceTable}, Layout pubInputs t → ∀ i < 255, t.row (i + 1) c = t.row i c := fun h i hi => by
    rcases hc with rfl | rfl
    exacts [h.secret i hi, h.pid i hi]
  rcases Nat.eq_zero_or_pos r.val with h0 | hpos
  · have h2 := hstep h' 0 (by omega)
    have hself : (tamper t r c v).row 0 c = v := by rw [row_tamper (by omega), if_pos ⟨h0.symm, rfl⟩]
    rw [row_tamper_row (by omega) (by omega), hstep h 0 (by omega), hself] at h2
    rw [h0, h2]
  · obtain ⟨i, hi⟩ : ∃ i, r.val = i + 1 := ⟨r.val - 1, by omega⟩
    have h2 := hstep h' i (by omega)
    rw [← hi, row_tamper_self, row_tamper_row (by omega) (by omega), ← hstep h i (by omega), ← hi] at h2
    exact h2

theorem Layout.type_rigid (hc : c ∈ typeColumns) (h0 : r.val % 8 = 0) : v = t.row r.val c := by
  have h1 := h.types (r.val / 8) (by omega) c hc
  have h2 := h'.types (r.val / 8) (by omega) c hc
  rw [← row_of_first h0] at h1 h2
  rw [h1, ← h2, row_tamper_self]

/-- An asserted cell is rigid. -/
theorem Layout.asserted_rigid {a : Assertion} (ha : a ∈ getAssertions pubInputs) (hr : r.val = a.step)
    (hc : c = a.column) : v = t.row r.val c := by
  have h1 := h.assertions a ha
  have h2 := h'.assertions a ha
  rw [← hr, ← hc] at h1 h2
  rw [h1, ← h2, row_tamper_self]

/-- On the leaf row the expiry and the range-check bits account for each other. -/
theorem Layout.expiry_rigid (hr : r.val = 8) (hc : c = auxD) : v = t.row r.val c := by
  have h1 := h.sum
  have h2 := h'.sum
  have hbits : weighted ((tamper t r c v).row 8) = weighted (t.row 8) :=
    Finset.sum_congr rfl fun i _ => by rw [row_tamper_col (by omega) (hc ▸ rcBit_ne_auxD i)]
  have hself : (tamper t r c v).row 8 auxD = v := by rw [row_tamper (by omega), if_pos ⟨hr.symm, hc.symm⟩]
  rw [hbits, h1, hself] at h2
  rw [hr, hc]
  linear_combination -h2

theorem Layout.leafBit_rigid (hr : r.val = 8) {k : Fin 32} (hc : c = rcBit k) : v = t.row r.val c := by
  have h1 := h.sum
  have h2 := h'.sum
  have hexpiry : (tamper t r c v).row 8 auxD = t.row 8 auxD :=
    row_tamper_col (by omega) (hc ▸ (rcBit_ne_auxD k).symm)
  have hself : (tamper t r c v).row 8 (rcBit k) = v := by rw [row_tamper (by omega), if_pos ⟨hr.symm, hc.symm⟩]
  -- the sums differ by the weight of the changed bit
  have hdiff : weighted ((tamper t r c v).row 8) - weighted (t.row 8) =
      (v - t.row 8 (rcBit k)) * BaseElement.new (1 <<< k.val) := by
    unfold weighted
    rw [← Finset.sum_sub_distrib, Finset.sum_eq_single k, hself, ← sub_mul]
    · rfl
    · intro i _ hik
      rw [row_tamper_col (by omega) (hc ▸ fun hi => hik (rcBit_injective hi)), sub_self]
    · exact fun hk => absurd (Finset.mem_univ k) hk
  rw [h1, h2, hexpiry, sub_self] at hdiff
  have hzero := (mul_eq_zero.1 hdiff.symm).resolve_right (weight_ne_zero k)
  rw [hr, hc]
  exact sub_eq_zero.1 hzero

/-- A Merkle job starts from the same children in both tables. -/
theorem Layout.same_children (hc : 8 ≤ c.val) (h0 : r.val % 8 = 0) (hpos : 0 < r.val)
    (hm : jobTypeColumn (r.val / 8) = tMerkle) {t' : TraceTable} (ht' : tamper t r c v = t') :
    t'.row r.val auxB * t'.row r.val auxA + (1 - t'.row r.val auxB) * t.row (r.val - 1) s0 =
      t.row r.val auxB * t.row r.val auxA + (1 - t.row r.val auxB) * t.row (r.val - 1) s0 ∧
    t'.row r.val auxB * t.row (r.val - 1) s0 + (1 - t'.row r.val auxB) * t'.row r.val auxA =
      t.row r.val auxB * t.row (r.val - 1) s0 + (1 - t.row r.val auxB) * t.row r.val auxA := by
  obtain ⟨job, hjob⟩ : ∃ job, r.val = 8 * (job + 1) := ⟨r.val / 8 - 1, by omega⟩
  rw [hjob, Nat.mul_div_cancel_left _ (by omega)] at hm
  have h1 := h.start job (by omega)
  have h2 := h'.start job (by omega)
  have hprev : (tamper t r c v).row (8 * job + 7) s0 = t.row (8 * job + 7) s0 :=
    row_tamper_row (by omega) (by omega) s0
  rw [← hjob, lanes_tamper r.isLt (.inr hc), hprev, ht'] at h2
  rw [← hjob] at h1
  have hr : 8 * job + 7 = r.val - 1 := by omega
  rw [hm, hr] at h1 h2
  exact ⟨(congrFun h2 1).symm.trans (congrFun h1 1), (congrFun h2 2).symm.trans (congrFun h1 2)⟩

/-- The sibling of a Merkle job is rigid, and its direction is unless the sibling is the digest before it. -/
theorem Layout.sibling_rigid (hc : c = auxA) (h0 : r.val % 8 = 0) (hpos : 0 < r.val)
    (hm : jobTypeColumn (r.val / 8) = tMerkle) : v = t.row r.val c := by
  obtain ⟨h1, h2⟩ := h.same_children h' (by rw [hc]; decide) h0 hpos hm rfl
  have hB : (tamper t r c v).row r.val auxB = t.row r.val auxB := row_tamper_col r.isLt (by rw [hc]; decide)
  have hA : (tamper t r c v).row r.val auxA = v := by rw [row_tamper r.isLt, if_pos ⟨rfl, hc.symm⟩]
  rw [hB, hA] at h1 h2
  rw [hc]
  linear_combination h1 + h2

theorem Layout.direction_harmless (hc : c = auxB) (h0 : r.val % 8 = 0) (hpos : 0 < r.val)
    (hm : jobTypeColumn (r.val / 8) = tMerkle) (hne : v ≠ t.row r.val c) : Harmless t r c v := by
  obtain ⟨h1, -⟩ := h.same_children h' (by rw [hc]; decide) h0 hpos hm rfl
  have hA : (tamper t r c v).row r.val auxA = t.row r.val auxA := row_tamper_col r.isLt (by rw [hc]; decide)
  have hB : (tamper t r c v).row r.val auxB = v := by rw [row_tamper r.isLt, if_pos ⟨rfl, hc.symm⟩]
  rw [hA, hB] at h1
  have hzero : (v - t.row r.val auxB) * (t.row r.val auxA - t.row (r.val - 1) s0) = 0 := by
    linear_combination h1
  have hsib := (mul_eq_zero.1 hzero).resolve_left (sub_ne_zero.2 (hc ▸ hne))
  have hbool := h'.direction (r.val / 8) (by omega) hm
  rw [← row_of_first h0, hB] at hbool
  exact .direction hc h0 hpos hm hbool (sub_eq_zero.1 hsib)

/-- The cells of the leaf job's first row are bound: three are asserted, the expiry is weighed. -/
theorem Layout.leafAux_rigid (hr : r.val = 8) (hc : 8 ≤ c.val ∧ c.val < 12) : v = t.row r.val c := by
  obtain ⟨k, hk⟩ : ∃ k : Fin 4, c = auxCol k := ⟨⟨c.val - 8, by omega⟩, Fin.ext (by simp [auxCol]; omega)⟩
  fin_cases k
  · exact h.asserted_rigid h' (a := ⟨auxA, rowLeafFirst, pubInputs.registryId⟩) (by simp [getAssertions]) hr hk
  · exact h.asserted_rigid h' (a := ⟨auxB, rowLeafFirst, 0⟩) (by simp [getAssertions]) hr hk
  · exact h.asserted_rigid h' (a := ⟨auxC, rowLeafFirst, 1⟩) (by simp [getAssertions]) hr hk
  · exact h.expiry_rigid h' hr hk

/-- The purpose and the nonce of the nullifier job are asserted. -/
theorem Layout.nullifierAux_rigid (hr : r.val = 216) (hc : c = auxA ∨ c = auxB) : v = t.row r.val c := by
  rcases hc with hc | hc
  · exact h.asserted_rigid h' (a := ⟨auxA, rowNullifierFirst, pubInputs.purpose⟩) (by simp [getAssertions]) hr hc
  · exact h.asserted_rigid h' (a := ⟨auxB, rowNullifierFirst, pubInputs.requestNonce⟩) (by simp [getAssertions]) hr hc

/-- A change that keeps a table accepted is a harmless one. -/
theorem Layout.harmless (hne : v ≠ t.row r.val c) : Harmless t r c v := by
  by_cases hlane : c.val < 8
  · exact absurd (h.lane_rigid h' hlane) hne
  by_cases haux : c.val < 12
  · by_cases hread : r.val % 8 ≠ 0 ∨ r.val = 0 ∨ (10 ≤ c.val ∧ r.val ≠ 8)
    · exact .unread (.inl ⟨by omega, haux, hread⟩)
    obtain ⟨h0, hpos, hlast⟩ : r.val % 8 = 0 ∧ 0 < r.val ∧ (10 ≤ c.val → r.val = 8) := by omega
    by_cases h8 : r.val = 8
    · exact absurd (h.leafAux_rigid h' h8 ⟨by omega, haux⟩) hne
    have hc : c = auxA ∨ c = auxB := by
      have : c.val = 8 ∨ c.val = 9 := by omega
      exact this.imp (fun h => Fin.ext h) fun h => Fin.ext h
    by_cases h216 : r.val = 216
    · exact absurd (h.nullifierAux_rigid h' h216 hc) hne
    have hm : jobTypeColumn (r.val / 8) = tMerkle := jobTypeColumn_merkle (by omega) (by omega)
    rcases hc with hc | hc
    · exact absurd (h.sibling_rigid h' hc h0 hpos hm) hne
    · exact h.direction_harmless h' hc h0 hpos hm hne
  by_cases hheld : c.val < 14
  · have hc : c = heldSecret ∨ c = heldPid := by
      have : c.val = 12 ∨ c.val = 13 := by omega
      exact this.imp (fun h => Fin.ext h) fun h => Fin.ext h
    exact absurd (h.held_rigid h' hc) hne
  by_cases htype : c.val < 18
  · by_cases h0 : r.val % 8 = 0
    · refine absurd (h.type_rigid h' (mem_typeColumns.2 ?_) h0) hne
      have : c.val = 14 ∨ c.val = 15 ∨ c.val = 16 ∨ c.val = 17 := by omega
      exact this.imp (fun h => Fin.ext h) (Or.imp (fun h => Fin.ext h) (Or.imp (fun h => Fin.ext h) fun h => Fin.ext h))
    · exact .unread (.inr (.inl ⟨by omega, htype, h0⟩))
  obtain ⟨k, hk⟩ : ∃ k : Fin 32, c = rcBit k := ⟨⟨c.val - 18, by omega⟩, Fin.ext (by simp [rcBit]; omega)⟩
  by_cases h255 : r.val = 255
  · exact .unread (.inr (.inr ⟨by omega, h255⟩))
  by_cases h8 : r.val = 8
  · exact absurd (h.leafBit_rigid h' h8 hk) hne
  have hbool := h'.bits r.val (by omega) k
  rw [← hk, row_tamper_self] at hbool
  exact .rangeBit (by omega) h8 hbool

end

/-! ## Cells that can change -/

/-- The cells no harmless change touches. -/
def Pinned (i : ℕ) (c : Fin 50) : Prop :=
  c.val < 8 ∨ (12 ≤ c.val ∧ c.val < 14) ∨ (14 ≤ c.val ∧ c.val < 18 ∧ i % 8 = 0) ∨ (8 ≤ c.val ∧ i = 8) ∨
    (8 ≤ c.val ∧ c.val < 10 ∧ i = 216) ∨ (c.val = 8 ∧ i % 8 = 0 ∧ 0 < i)

section

variable {t : TraceTable} {r : Fin 256} {c : Fin 50} {v : BaseElement} (hh : Harmless t r c v)

include hh

theorem Harmless.pinned {i : ℕ} (hi : i < 256) {c' : Fin 50} (hp : Pinned i c') :
    (tamper t r c v).row i c' = t.row i c' := by
  rw [row_tamper hi, if_neg]
  rintro ⟨rfl, rfl⟩
  unfold Pinned at hp
  cases hh with
  | unread hu =>
    unfold Unread at hu
    omega
  | rangeBit hc h8 _ => omega
  | direction hc h0 hpos hm _ _ =>
    have h8 : r.val ≠ 8 := fun h => by
      rw [h] at hm
      exact absurd hm (by decide)
    have h216 : r.val ≠ 216 := fun h => by
      rw [h] at hm
      exact absurd hm (by decide)
    have hB : c'.val = 9 := congrArg Fin.val hc
    omega

/-- A direction stays, or it is one that does not matter. -/
theorem Harmless.directions {i : ℕ} (hi : i < 256) (h0 : i % 8 = 0) (hpos : 0 < i) :
    (tamper t r c v).row i auxB = t.row i auxB ∨
      (jobTypeColumn (i / 8) = tMerkle ∧ ((tamper t r c v).row i auxB = 0 ∨ (tamper t r c v).row i auxB = 1) ∧
        t.row i auxA = t.row (i - 1) s0) := by
  rw [row_tamper hi]
  split
  · rename_i hir
    obtain ⟨rfl, rfl⟩ := hir
    cases hh with
    | unread hu =>
      have hu : (8 ≤ 9 ∧ 9 < 12 ∧ (r.val % 8 ≠ 0 ∨ r.val = 0 ∨ (10 ≤ 9 ∧ r.val ≠ 8))) ∨
        (14 ≤ 9 ∧ 9 < 18 ∧ r.val % 8 ≠ 0) ∨ (18 ≤ 9 ∧ r.val = 255) := hu
      omega
    | rangeBit hc => exact absurd hc (by decide)
    | direction _ _ _ hm hv hsib => exact .inr ⟨hm, hv, hsib⟩
  · exact .inl rfl

/-- The range-check bits of the enforced rows stay booleans. -/
theorem Harmless.bits {i : ℕ} (hi : i < 255) (k : Fin 32) (hold : t.row i (rcBit k) = 0 ∨ t.row i (rcBit k) = 1) :
    (tamper t r c v).row i (rcBit k) = 0 ∨ (tamper t r c v).row i (rcBit k) = 1 := by
  rw [row_tamper (by omega)]
  split
  · rename_i hir
    obtain ⟨rfl, rfl⟩ := hir
    have hge : 18 ≤ (rcBit k).val := Nat.le_add_right _ _
    cases hh with
    | unread hu =>
      unfold Unread at hu
      omega
    | rangeBit _ _ hv => exact hv
    | direction hc =>
      rw [hc] at hge
      exact absurd hge (by decide)
  · exact hold

end

/-- A job's inputs do not depend on what it does not read, nor a Merkle job's on its direction when the
sibling is the digest. -/
theorem jobInput_congr {col : Fin 50} {secret pid prev : BaseElement} {aux aux' : Fin 4 → BaseElement}
    (h0 : aux' 0 = aux 0) (h1 : aux' 1 = aux 1 ∨ (col = tMerkle ∧ aux 0 = prev))
    (h23 : col = tLeaf → aux' 2 = aux 2 ∧ aux' 3 = aux 3) :
    jobInput col secret pid prev aux' = jobInput col secret pid prev aux := by
  unfold jobInput
  by_cases howner : col = tOwner
  · rw [if_pos howner, if_pos howner]
  rw [if_neg howner, if_neg howner]
  by_cases hleaf : col = tLeaf
  · have h1 : aux' 1 = aux 1 := h1.resolve_right fun hm => absurd (hleaf.symm.trans hm.1) (by decide)
    rw [if_pos hleaf, if_pos hleaf, h0, h1, (h23 hleaf).1, (h23 hleaf).2]
  rw [if_neg hleaf, if_neg hleaf]
  by_cases hm : col = tMerkle
  · rw [if_pos hm, if_pos hm, h0]
    rcases h1 with h1 | ⟨-, hsib⟩
    · rw [h1]
    · have hsame : ∀ b : BaseElement, b * prev + (1 - b) * prev = prev := fun b => by ring
      rw [hsib, hsame, hsame]
  · have h1 : aux' 1 = aux 1 := h1.resolve_right fun h => hm h.1
    rw [if_neg hm, if_neg hm, h0, h1]

/-- Every asserted cell is pinned. -/
theorem pinned_of_assertion {pubInputs : PublicInputs} {a : Assertion} (ha : a ∈ getAssertions pubInputs) :
    a.step < 256 ∧ Pinned a.step a.column := by
  unfold getAssertions at ha
  rcases List.mem_append.1 ha with ha | ha
  · simp only [List.mem_cons, List.not_mem_nil, or_false] at ha
    rcases ha with rfl | rfl | rfl | rfl | rfl | rfl | rfl <;> dsimp only [Pinned] <;> decide
  · obtain ⟨job, hj, rfl⟩ := List.mem_map.1 ha
    have hj : job < 32 := List.mem_range.1 hj
    obtain ⟨hlo, hhi⟩ := jobTypeColumn_bounds job
    have hstep : jobStartRow job = 8 * job := Nat.mul_comm _ _
    refine ⟨by show jobStartRow job < 256; omega, .inr (.inr (.inl ⟨hlo, hhi, ?_⟩))⟩
    show jobStartRow job % 8 = 0
    omega

section

variable {pubInputs : PublicInputs} {t : TraceTable} {r : Fin 256} {c : Fin 50} {v : BaseElement}

/-- A harmless change keeps every lane, -/
theorem Harmless.lanes (hh : Harmless t r c v) {i : ℕ} (hi : i < 256) : (tamper t r c v).lanes i = t.lanes i :=
  funext fun j => hh.pinned hi (.inl j.isLt)

/-- and the inputs of every job but the first. -/
theorem Harmless.inputs (hh : Harmless t r c v) {job : ℕ} (hj : job < 31) (secret pid : BaseElement) :
    (jobInput (jobTypeColumn (job + 1)) secret pid (t.row (8 * job + 7) s0)
      fun k => (tamper t r c v).row (8 * (job + 1)) (auxCol k)) =
    jobInput (jobTypeColumn (job + 1)) secret pid (t.row (8 * job + 7) s0) fun k => t.row (8 * (job + 1)) (auxCol k) := by
  have hi : 8 * (job + 1) < 256 := by omega
  refine jobInput_congr (hh.pinned hi (.inr (.inr (.inr (.inr (.inr ⟨rfl, by omega, by omega⟩)))))) ?_ fun hl => ?_
  · rcases hh.directions hi (by omega) (by omega) with h | ⟨hm, -, hsib⟩
    · exact .inl h
    · rw [Nat.mul_div_cancel_left _ (by omega)] at hm
      rw [show 8 * (job + 1) - 1 = 8 * job + 7 by omega] at hsib
      exact .inr ⟨hm, hsib⟩
  · have h8 : 8 * (job + 1) = 8 := by
      have := jobTypeColumn_leaf (by omega) hl
      omega
    rw [h8]
    exact ⟨hh.pinned (by omega) (.inr (.inr (.inr (.inl ⟨by decide, rfl⟩)))),
      hh.pinned (by omega) (.inr (.inr (.inr (.inl ⟨by decide, rfl⟩))))⟩

theorem Harmless.layout (hh : Harmless t r c v) (h : Layout pubInputs t) : Layout pubInputs (tamper t r c v) where
  assertions a ha := by
    obtain ⟨hstep, hp⟩ := pinned_of_assertion ha
    rw [hh.pinned hstep hp, h.assertions a ha]
  round i hi h7 := by rw [hh.lanes (by omega), hh.lanes (by omega), h.round i hi h7]
  start job hj := by
    have hi : 8 * job + 7 < 256 := by omega
    rw [hh.lanes (by omega), hh.pinned hi (.inr (.inl (by decide))), hh.pinned hi (.inr (.inl (by decide))),
      hh.pinned hi (.inl (by decide)), hh.inputs hj, h.start job hj]
  secret i hi := by
    rw [hh.pinned (by omega) (.inr (.inl (by decide))), hh.pinned (by omega) (.inr (.inl (by decide))), h.secret i hi]
  pid i hi := by
    rw [hh.pinned (by omega) (.inr (.inl (by decide))), hh.pinned (by omega) (.inr (.inl (by decide))), h.pid i hi]
  types job hj c' hc' := by
    have hb : 14 ≤ c'.val ∧ c'.val < 18 := by
      rw [mem_typeColumns] at hc'
      rcases hc' with rfl | rfl | rfl | rfl <;> decide
    rw [hh.pinned (by omega) (.inr (.inr (.inl ⟨hb.1, hb.2, by omega⟩))), h.types job hj c' hc']
  direction job hj hm := by
    have hpos : 0 < job := by
      rcases Nat.eq_zero_or_pos job with rfl | hpos
      · exact absurd hm (by decide)
      · exact hpos
    rcases hh.directions (show 8 * job < 256 by omega) (by omega) (by omega) with hd | ⟨-, hd, -⟩
    · rw [hd]
      exact h.direction job hj hm
    · exact hd
  bits i hi k := hh.bits hi k (h.bits i hi k)
  sum := by
    have hrow : ∀ c' : Fin 50, 8 ≤ c'.val → (tamper t r c v).row 8 c' = t.row 8 c' := fun c' hc' =>
      hh.pinned (by omega) (.inr (.inr (.inr (.inl ⟨hc', rfl⟩))))
    have hweight : weighted ((tamper t r c v).row 8) = weighted (t.row 8) :=
      Finset.sum_congr rfl fun k _ => by
        rw [hrow _ (show 8 ≤ 18 + k.val by omega)]
    rw [hweight, hrow auxD (by decide), h.sum]

/-- Exactly these changes of a single cell of an accepted table are accepted: those of a cell nothing reads,
of a range-check bit off the leaf row to the other bit, and of a direction whose sibling is the digest
before it. Every other cell is rigid: the lanes of all rows, the held pair, the selectors, flags and
expiry, the siblings, and the range-check bits that weigh. -/
theorem tampering_exact (h : Satisfies pubInputs t) (hne : v ≠ t r c) :
    Satisfies pubInputs (tamper t r c v) ↔ Harmless t r c v := by
  have hr : t.row r.val = t r := by
    unfold TraceTable.row
    rw [Fin.ofNat_val_eq_self]
  rw [satisfies_iff_layout] at h ⊢
  constructor
  · intro h'
    exact h.harmless h' (by rwa [hr])
  · intro hh
    exact hh.layout h

end

/-- The auxiliary value of the owner job can be anything. -/
theorem tampering_exact_sample : Satisfies ((sampleData (absorb [])).publicInputs 0)
    (tamper ((sampleData (absorb [])).table (fun _ => 0) 32) 0 auxA 1) := by
  have hcell : (sampleData (absorb [])).table (fun _ => 0) 32 0 auxA = 0 :=
    (sampleData (absorb [])).cell_aux (fun _ => 0) (show 0 / 8 < 32 by decide) rfl 0
  refine (tampering_exact (JobData.satisfies_of_fits (sample_fits _)) ?_).2
    (.unread (.inl ⟨by decide, by decide, .inr (.inl rfl)⟩))
  rw [hcell]
  exact one_ne_zero

end Yaqeen.Air
