/-
The trace the production prover builds: it is the table of the witness's jobs, so every assertion
holds and so does every transition, the exempted last one included.
-/
import Yaqeen.Prover.BuildTrace
import Yaqeen.Air.RangeCheck
import Yaqeen.Air.JobTable

namespace Yaqeen.Prover

open Air HashTree

/-! ## What a job writes -/

theorem write_apply (cols : TraceTable) (col : Fin 50) (row : ℕ) (v : BaseElement) (r : Fin 256) (c : Fin 50) :
    write cols col row v r c = if r.val = row ∧ c = col then v else cols r c := rfl

theorem foldl_write_column (cols : TraceTable) (col : Fin 50) (start : ℕ) (v : BaseElement) (r : Fin 256) (c : Fin 50) :
    ∀ n, (List.range n).foldl (fun cols k => write cols col (start + k) v) cols r c =
      if c = col ∧ start ≤ r.val ∧ r.val < start + n then v else cols r c
  | 0 => by rw [if_neg (by omega)]; rfl
  | n + 1 => by
    rw [List.range_succ, List.foldl_append, List.foldl_cons, List.foldl_nil]
    rw [write_apply, foldl_write_column cols col start v r c n]
    split_ifs <;> first | rfl | omega

section

variable {n : ℕ} (col : Fin n → Fin 50) (row : ℕ) (v : Fin n → BaseElement)

theorem foldl_write_other {r : Fin 256} {c : Fin 50} (h : r.val = row → ∀ k, col k ≠ c) :
    ∀ (ks : List (Fin n)) (cols : TraceTable),
      ks.foldl (fun cols k => write cols (col k) row (v k)) cols r c = cols r c
  | [], _ => rfl
  | k :: ks, cols => by
    rw [List.foldl_cons, foldl_write_other h ks, write_apply, if_neg]
    rintro ⟨hr, hc⟩
    exact h hr k hc.symm

theorem foldl_write_at (hinj : Function.Injective col) {r : Fin 256} (hr : r.val = row) (k : Fin n) :
    ∀ (ks : List (Fin n)) (cols : TraceTable), k ∈ ks ∨ cols r (col k) = v k →
      ks.foldl (fun cols k => write cols (col k) row (v k)) cols r (col k) = v k
  | [], _, h => h.resolve_left List.not_mem_nil
  | k' :: ks, cols, h => by
    rw [List.foldl_cons]
    refine foldl_write_at hinj hr k ks _ ?_
    rw [write_apply]
    by_cases hk : k = k'
    · subst hk
      exact .inr (if_pos ⟨hr, rfl⟩)
    · rw [if_neg fun h => hk (hinj h.2)]
      exact h.imp_left fun hm => (List.mem_cons.1 hm).resolve_left hk

end

theorem writeLanes_apply (cols : TraceTable) (row : ℕ) (state : Lanes BaseElement) (r : Fin 256) (c : Fin 50) :
    writeLanes cols row state r c =
      if h : c.val < 8 then (if r.val = row then state ⟨c.val, h⟩ else cols r c) else cols r c := by
  unfold writeLanes
  by_cases hc : c.val < 8
  · rw [dif_pos hc]
    by_cases hr : r.val = row
    · rw [if_pos hr]
      exact foldl_write_at stateCol row state (by decide) hr ⟨c.val, hc⟩ _ cols (.inl (List.mem_finRange _))
    · rw [if_neg hr]
      exact foldl_write_other stateCol row state (fun h => absurd h hr) _ cols
  · rw [dif_neg hc]
    refine foldl_write_other stateCol row state (fun _ k hk => ?_) _ cols
    subst hk
    exact hc k.isLt

/-- The round loop leaves the state after each round on its row. -/
theorem foldl_rounds (cols : TraceTable) (start : ℕ) (init : Lanes BaseElement) : ∀ n,
    (List.range n).foldl
      (fun (p : TraceTable × Lanes BaseElement) r =>
        let state := applyRound p.2 (roundConstants (Fin.ofNat 8 r))
        (writeLanes p.1 (start + r + 1) state, state)) (writeLanes cols start init, init) =
      ((fun r c => if h : c.val < 8 then
          (if start ≤ r.val ∧ r.val ≤ start + n then runRounds (r.val - start) init ⟨c.val, h⟩ else cols r c)
        else cols r c), runRounds n init)
  | 0 => by
    refine Prod.ext (funext fun r => funext fun c => ?_) rfl
    simp only [List.range_zero, List.foldl_nil, writeLanes_apply]
    by_cases hc : c.val < 8
    · rw [dif_pos hc, dif_pos hc]
      by_cases hr : r.val = start
      · rw [if_pos hr, if_pos (by omega), hr, Nat.sub_self]; rfl
      · rw [if_neg hr, if_neg (by omega)]
    · rw [dif_neg hc, dif_neg hc]
  | n + 1 => by
    rw [List.range_succ, List.foldl_append, foldl_rounds cols start init n]
    refine Prod.ext (funext fun r => funext fun c => ?_) rfl
    simp only [List.foldl_cons, List.foldl_nil, writeLanes_apply]
    -- the row of the last round, the rows of the earlier ones, and all others
    by_cases hc : c.val < 8
    · rw [dif_pos hc, dif_pos hc, dif_pos hc]
      by_cases hr : r.val = start + n + 1
      · rw [if_pos hr, if_pos (by omega), hr, show start + n + 1 - start = n + 1 by omega]; rfl
      · rw [if_neg hr]
        by_cases hin : start ≤ r.val ∧ r.val ≤ start + n
        · rw [if_pos hin, if_pos (by omega)]
        · rw [if_neg hin, if_neg (by omega)]
    · rw [dif_neg hc, dif_neg hc, dif_neg hc]

/-- Before its lanes, a job writes its selector and the auxiliary values of its first row. -/
theorem write_job_columns (cols : TraceTable) (job : ℕ) (aux : Fin 4 → BaseElement) (r : Fin 256) (c : Fin 50) :
    write (write (write (write ((List.range rounds).foldl
        (fun cols k => write cols (jobTypeColumn job) (jobStartRow job + k) 1) cols)
      auxA (jobStartRow job) (aux 0)) auxB (jobStartRow job) (aux 1)) auxC (jobStartRow job) (aux 2))
      auxD (jobStartRow job) (aux 3) r c =
      if r.val / 8 = job then
        if h : 8 ≤ c.val ∧ c.val < 12 ∧ r.val % 8 = 0 then aux ⟨c.val - 8, by omega⟩
        else if c = jobTypeColumn job then 1
        else cols r c
      else cols r c := by
  have hstart : jobStartRow job = job * 8 := rfl
  have hrows : (jobStartRow job ≤ r.val ∧ r.val < jobStartRow job + 8) ↔ r.val / 8 = job := by rw [hstart]; omega
  have hfirst : r.val = jobStartRow job ↔ r.val / 8 = job ∧ r.val % 8 = 0 := by rw [hstart]; omega
  simp only [write_apply, foldl_write_column, hrows, hfirst]
  by_cases hr : r.val / 8 = job
  · simp only [hr, true_and, and_true, if_true]
    by_cases hc : 8 ≤ c.val ∧ c.val < 12
    · obtain ⟨k, rfl⟩ : ∃ k : Fin 4, c = auxCol k := ⟨⟨c.val - 8, by omega⟩, Fin.ext (by simp [auxCol]; omega)⟩
      by_cases h0 : r.val % 8 = 0
      · rw [dif_pos ⟨hc.1, hc.2, h0⟩]
        fin_cases k <;> simp [h0] <;> rfl
      · rw [dif_neg (fun h => h0 h.2.2)]
        simp only [h0, false_and, if_false]
    · have hA : c ≠ auxA ∧ c ≠ auxB ∧ c ≠ auxC ∧ c ≠ auxD := by
        refine ⟨?_, ?_, ?_, ?_⟩ <;> (rintro rfl; exact hc (by decide))
      rw [dif_neg (fun h => hc ⟨h.1, h.2.1⟩)]
      simp only [hA.1, hA.2.1, hA.2.2.1, hA.2.2.2, and_false, if_false]
  · simp only [hr, false_and, and_false, if_false]

/-- A job writes its lanes on its eight rows, its auxiliary values on the first, and its selector. -/
theorem runJob_apply (cols : TraceTable) (job : ℕ) (init : Lanes BaseElement) (aux : Fin 4 → BaseElement)
    (r : Fin 256) (c : Fin 50) :
    (runJob cols job init aux).1 r c =
      if r.val / 8 = job then
        if h : c.val < 8 then runRounds (r.val % 8) init ⟨c.val, h⟩
        else if h : c.val < 12 ∧ r.val % 8 = 0 then aux ⟨c.val - 8, by omega⟩
        else if c = jobTypeColumn job then 1
        else cols r c
      else cols r c := by
  have hstart : jobStartRow job = job * 8 := rfl
  have hrows : (jobStartRow job ≤ r.val ∧ r.val ≤ jobStartRow job + 7) ↔ r.val / 8 = job := by rw [hstart]; omega
  unfold runJob
  simp only [show rounds - 1 = 7 from rfl, foldl_rounds, write_job_columns, hrows]
  by_cases hr : r.val / 8 = job
  · simp only [hr, if_true, show r.val - jobStartRow job = r.val % 8 by rw [hstart]; omega]
    by_cases hc : c.val < 8
    · rw [dif_pos hc, dif_pos hc]
    · rw [dif_neg hc, dif_neg hc]
      have h8 : (8 ≤ c.val ∧ c.val < 12 ∧ r.val % 8 = 0) = (c.val < 12 ∧ r.val % 8 = 0) := by
        rw [eq_iff_iff]; omega
      simp only [h8]
  · simp only [hr, if_false, dite_eq_ite, ite_self]

theorem runJob_digest (cols : TraceTable) (job : ℕ) (init : Lanes BaseElement) (aux : Fin 4 → BaseElement) :
    (runJob cols job init aux).2 = runRounds 7 init 0 := by
  unfold runJob
  simp only [show rounds - 1 = 7 from rfl, foldl_rounds]

/-- Running the next job over the jobs laid out so far lays out that job. -/
theorem runJob_table (d : JobData) (rc : Fin 32 → BaseElement) (job : ℕ) :
    runJob (d.table rc job) job (d.input job) (d.aux job) = (d.table rc (job + 1), d.digest job) := by
  refine Prod.ext (funext fun r => funext fun c => ?_) (runJob_digest _ _ _ _)
  rw [runJob_apply]
  show _ = d.cell rc (job + 1) r.val c
  rw [show d.table rc job r c = d.cell rc job r.val c from rfl]
  unfold JobData.cell
  obtain ⟨hlo, hhi⟩ := jobTypeColumn_bounds job
  by_cases hr : r.val / 8 = job
  · rw [if_pos hr, hr]
    -- column by column: held values, range bits, auxiliary values and lanes, selectors
    by_cases hheld : c = heldSecret ∨ c = heldPid
    · have hne : c ≠ jobTypeColumn job := by
        rcases hheld with rfl | rfl <;> intro h <;> rw [← h] at hlo <;> exact absurd hlo (by decide)
      rcases hheld with rfl | rfl <;> rw [dif_neg (by decide), dif_neg (by simp), if_neg hne]
      · rfl
      · rfl
    · rw [not_or] at hheld
      simp only [if_neg hheld.1, if_neg hheld.2, if_pos (le_refl job), if_neg (Nat.not_succ_le_self job)]
      by_cases h18 : 18 ≤ c.val
      · have hne : c ≠ jobTypeColumn job := by rintro rfl; omega
        rw [dif_pos h18, dif_pos h18, dif_neg (by omega), dif_neg (by omega), if_neg hne]
      · rw [dif_neg h18, dif_neg h18]
        by_cases h12 : c.val < 12
        · have hne : c ≠ jobTypeColumn job := by rintro rfl; omega
          by_cases h8 : c.val < 8
          · rw [dif_pos h8, dif_pos h8]
          · rw [dif_neg h8, dif_neg h8, dif_pos h12]
            -- written on the first row of the job only
            by_cases h0 : r.val % 8 = 0
            · rw [dif_pos ⟨h12, h0⟩, if_pos h0]
            · rw [dif_neg (fun h => h0 h.2), if_neg h0, if_neg hne]
        · rw [dif_neg (by omega), dif_neg (fun h => h12 h.1), dif_neg (by omega), dif_neg h12]
  · rw [if_neg hr]
    have hle : job ≤ r.val / 8 ↔ job + 1 ≤ r.val / 8 := by omega
    simp only [hle]

/-! ## The jobs of a witness -/

def rangeBits (w : Witness) : Fin 32 → BaseElement := fun i =>
  (toBitsLe (w.licenseExpiry - w.currentTimestamp - 1) 32).getD i.val 0

def auxOf (w : Witness) (job : ℕ) : Fin 4 → BaseElement :=
  if job = 1 then ![w.registryId, 0, 1, BaseElement.new w.licenseExpiry.toNat]
  else if 2 ≤ job ∧ job < 27 then
    ![w.merkleSiblings.getD (job - 2) 0, if w.merkleBits.getD (job - 2) false then 1 else 0, 0, 0]
  else if job = 27 then ![w.purpose, w.requestNonce, 0, 0]
  else ![0, 0, 0, 0]

def witnessData (w : Witness) : JobData where
  secret := w.ownerSecret
  pid := w.propertyId
  first := absorb [BaseElement.new domainOwnerCommitment, w.ownerSecret, w.propertyId]
  aux := auxOf w

theorem absorb_three (a b c : BaseElement) : absorb [a, b, c] = ![a, b, c, 0, 0, 0, 0, 0] := by
  funext i; fin_cases i <;> rfl

theorem absorb_five (a b c d e : BaseElement) : absorb [a, b, c, d, e] = ![a, b, c, d, e, 0, 0, 0] := by
  funext i; fin_cases i <;> rfl

theorem absorb_six (a b c d e f : BaseElement) : absorb [a, b, c, d, e, f] = ![a, b, c, d, e, f, 0, 0] := by
  funext i; fin_cases i <;> rfl

section

variable (w : Witness)

theorem auxOf_merkle {level : ℕ} (hl : level < 25) : auxOf w (2 + level) =
    ![w.merkleSiblings.getD level 0, if w.merkleBits.getD level false then 1 else 0, 0, 0] := by
  unfold auxOf
  rw [if_neg (by omega), if_pos (by omega), Nat.add_sub_cancel_left]

theorem auxOf_padding {job : ℕ} (hj : 27 < job) : auxOf w job = ![0, 0, 0, 0] := by
  unfold auxOf
  rw [if_neg (by omega), if_neg (by omega), if_neg (by omega)]

theorem input_owner : (witnessData w).input jobOwner =
    ![BaseElement.new domainOwnerCommitment, w.ownerSecret, w.propertyId, 0, 0, 0, 0, 0] :=
  absorb_three _ _ _

theorem input_leaf : (witnessData w).input jobLeaf =
    ![BaseElement.new domainLeaf, w.registryId, (witnessData w).digest 0, 0, 1,
      BaseElement.new w.licenseExpiry.toNat, 0, 0] :=
  absorb_six _ _ _ _ _ _

theorem input_nullifier : (witnessData w).input jobNullifier =
    ![BaseElement.new domainNullifier, w.ownerSecret, w.propertyId, w.purpose, w.requestNonce, 0, 0, 0] :=
  absorb_five _ _ _ _ _

/-- The children of a Merkle job are those the builder selects by the direction bit. -/
theorem input_merkle {level : ℕ} (hl : level < 25) (sibling : BaseElement) (isRight : Bool)
    (hs : w.merkleSiblings.getD level 0 = sibling) (hb : w.merkleBits.getD level false = isRight) :
    (witnessData w).input (2 + level) =
      ![BaseElement.new domainNode, if isRight then sibling else (witnessData w).digest (1 + level),
        if isRight then (witnessData w).digest (1 + level) else sibling, 0, 0, 0, 0, 0] := by
  rw [show 2 + level = 1 + level + 1 by omega, JobData.input, jobTypeColumn_merkle (by omega) (by omega),
    show 1 + level + 1 = 2 + level by omega]
  show jobInput tMerkle _ _ ((witnessData w).digest (1 + level)) (auxOf w (2 + level)) = _
  rw [auxOf_merkle w hl, hs, hb, jobInput, if_neg (by decide), if_neg (by decide), if_pos rfl, absorb_three]
  cases isRight <;> simp

theorem input_padding {job : ℕ} (hj : 27 < job) :
    (witnessData w).input job =
      ![BaseElement.new domainNode, (witnessData w).digest (job - 1), 0, 0, 0, 0, 0, 0] := by
  obtain ⟨k, rfl⟩ : ∃ k, job = k + 1 := ⟨job - 1, by omega⟩
  rw [JobData.input, jobTypeColumn_merkle (by omega) (by omega), Nat.add_sub_cancel]
  show jobInput tMerkle _ _ ((witnessData w).digest k) (auxOf w (k + 1)) = _
  rw [auxOf_padding w hj, jobInput, if_neg (by decide), if_neg (by decide), if_pos rfl, absorb_three]
  simp

/-! ## The builder, job by job -/

theorem initialCols_eq : initialCols w = (witnessData w).table (fun _ => 0) 0 := by
  funext r c
  unfold initialCols JobData.table JobData.cell
  simp only [ite_self, Nat.zero_le, if_true, dite_eq_ite]
  rfl

theorem foldl_write_bits (d : JobData) (bits : Fin 32 → BaseElement) :
    (List.finRange 32).foldl (fun cols i => write cols (rcBit i) (jobStartRow jobLeaf) (bits i))
      (d.table (fun _ => 0) 2) = d.table bits 2 := by
  have hrow : jobStartRow jobLeaf = 8 := rfl
  rw [hrow]
  funext r c
  by_cases hc : 18 ≤ c.val
  · obtain ⟨k, rfl⟩ : ∃ k, c = rcBit k := ⟨⟨c.val - 18, by omega⟩, Fin.ext (by simp [rcBit]; omega)⟩
    show _ = d.cell bits 2 r.val (rcBit k)
    rw [JobData.cell_rc]
    by_cases hr : r.val = 8
    · rw [if_pos hr]
      exact foldl_write_at rcBit 8 bits (by decide) hr k _ _ (.inl (List.mem_finRange _))
    · rw [if_neg hr, foldl_write_other rcBit 8 bits (fun h => absurd h hr)]
      show d.cell (fun _ => 0) 2 r.val (rcBit k) = 0
      rw [JobData.cell_rc, ite_self]
  · rw [foldl_write_other rcBit 8 bits (fun _ k hk => hc (by subst hk; simp [rcBit]))]
    show d.cell (fun _ => 0) 2 r.val c = d.cell bits 2 r.val c
    unfold JobData.cell
    simp only [dif_neg hc]

theorem merkleJob_table {rc : Fin 32 → BaseElement} {level : ℕ} (hl : level < 25)
    (hs : w.merkleSiblings.length = 25) (hb : w.merkleBits.length = 25) :
    merkleJob w ((witnessData w).table rc (2 + level), (witnessData w).digest (1 + level)) level =
      some ((witnessData w).table rc (2 + level + 1), (witnessData w).digest (2 + level)) := by
  obtain ⟨sibling, hsib⟩ : ∃ x, w.merkleSiblings[level]? = some x := ⟨_, List.getElem?_eq_getElem (by omega)⟩
  obtain ⟨isRight, hbit⟩ : ∃ x, w.merkleBits[level]? = some x := ⟨_, List.getElem?_eq_getElem (by omega)⟩
  have hs' : w.merkleSiblings.getD level 0 = sibling := by rw [List.getD_eq_getElem?_getD, hsib]; rfl
  have hb' : w.merkleBits.getD level false = isRight := by rw [List.getD_eq_getElem?_getD, hbit]; rfl
  have hrun := runJob_table (witnessData w) rc (2 + level)
  rw [input_merkle w hl sibling isRight hs' hb', show (witnessData w).aux = auxOf w from rfl, auxOf_merkle w hl,
    hs', hb'] at hrun
  unfold merkleJob
  rw [hsib, hbit]
  exact congrArg some hrun

theorem merkleJobs_table {rc : Fin 32 → BaseElement} (hs : w.merkleSiblings.length = 25)
    (hb : w.merkleBits.length = 25) : ∀ n ≤ 25,
    (List.range n).foldlM (merkleJob w) ((witnessData w).table rc 2, (witnessData w).digest 1) =
      some ((witnessData w).table rc (2 + n), (witnessData w).digest (1 + n))
  | 0, _ => rfl
  | n + 1, hn => by
    rw [List.range_succ, List.foldlM_append, merkleJobs_table hs hb n (by omega)]
    show (merkleJob w _ n >>= fun x => some x) = _
    rw [merkleJob_table w (by omega) hs hb, show 1 + (n + 1) = 2 + n by omega]
    rfl

theorem paddingJobs_table {rc : Fin 32 → BaseElement} : ∀ n,
    (List.range' 28 n).foldl
      (fun (p : TraceTable × BaseElement) job =>
        runJob p.1 job ![BaseElement.new domainNode, p.2, 0, 0, 0, 0, 0, 0] ![0, 0, 0, 0])
      ((witnessData w).table rc 28, (witnessData w).digest 27) =
      ((witnessData w).table rc (28 + n), (witnessData w).digest (27 + n))
  | 0 => rfl
  | n + 1 => by
    rw [List.range'_1_concat, List.foldl_append, paddingJobs_table n, List.foldl_cons, List.foldl_nil]
    have hrun := runJob_table (witnessData w) rc (28 + n)
    rw [input_padding w (by omega), show (witnessData w).aux = auxOf w from rfl, auxOf_padding w (by omega),
      show 28 + n - 1 = 27 + n by omega] at hrun
    rw [hrun, show 27 + (n + 1) = 28 + n by omega]
    rfl

theorem ownerJob_table : runJob (initialCols w) jobOwner
    ![BaseElement.new domainOwnerCommitment, w.ownerSecret, w.propertyId, 0, 0, 0, 0, 0] ![0, 0, 0, 0] =
    ((witnessData w).table (fun _ => 0) 1, (witnessData w).digest 0) := by
  rw [initialCols_eq w, ← input_owner w]
  exact runJob_table (witnessData w) _ 0

theorem leafJob_table : runJob ((witnessData w).table (fun _ => 0) 1) jobLeaf
    ![BaseElement.new domainLeaf, w.registryId, (witnessData w).digest 0, 0, 1,
      BaseElement.new w.licenseExpiry.toNat, 0, 0]
    ![w.registryId, 0, 1, BaseElement.new w.licenseExpiry.toNat] =
    ((witnessData w).table (fun _ => 0) 2, (witnessData w).digest 1) := by
  rw [← input_leaf w]
  exact runJob_table (witnessData w) _ 1

theorem nullifierJob_table : runJob ((witnessData w).table (rangeBits w) 27) jobNullifier
    ![BaseElement.new domainNullifier, w.ownerSecret, w.propertyId, w.purpose, w.requestNonce, 0, 0, 0]
    ![w.purpose, w.requestNonce, 0, 0] =
    ((witnessData w).table (rangeBits w) 28, (witnessData w).digest 27) := by
  rw [← input_nullifier w]
  exact runJob_table (witnessData w) _ 27

/-- With an expiry after the timestamp and full paths, the builder lays out the witness's table. -/
theorem buildTrace_eq (hs : w.merkleSiblings.length = 25) (hb : w.merkleBits.length = 25)
    (hlt : w.currentTimestamp < w.licenseExpiry) :
    buildTrace w = some ((witnessData w).table (rangeBits w) 32,
      (witnessData w).publicInputs (BaseElement.new w.currentTimestamp.toNat)) := by
  have hbits : writeRangeBits w ((witnessData w).table (fun _ => 0) 2) =
      some ((witnessData w).table (rangeBits w) 2) := by
    have h1 : 1 ≤ w.licenseExpiry - w.currentTimestamp := by
      rw [UInt64.le_iff_toNat_le, UInt64.toNat_sub_of_le _ _ (UInt64.le_of_lt hlt)]
      have := UInt64.lt_iff_toNat_lt.1 hlt
      show 1 ≤ _
      omega
    unfold writeRangeBits
    rw [guard, if_pos (UInt64.le_of_lt hlt), guard, if_pos h1]
    exact congrArg some (foldl_write_bits (witnessData w) (rangeBits w))
  unfold buildTrace
  simp only [ownerJob_table, leafJob_table, hbits]
  show (List.foldlM (merkleJob w) _ (List.range 25) >>= _) = _
  rw [merkleJobs_table w hs hb 25 le_rfl]
  simp only [Option.bind_eq_bind, Option.bind_some, Nat.reduceAdd, nullifierJob_table]
  rw [show List.range' (jobNullifier + 1) (jobCount - (jobNullifier + 1)) = List.range' 28 4 from rfl,
    paddingJobs_table w 4]
  rfl

/-! ## The statement of a witness -/

theorem rangeBits_apply (i : Fin 32) :
    rangeBits w i = bitCell (w.licenseExpiry - w.currentTimestamp - 1).toNat i := by
  unfold rangeBits toBitsLe bitCell
  rw [List.getD_eq_getElem?_getD, List.getElem?_map, List.getElem?_range i.isLt]
  rfl

/-- After the two checked subtractions the difference is the one of the integers. -/
theorem diff_toNat (hlt : w.currentTimestamp < w.licenseExpiry) :
    (w.licenseExpiry - w.currentTimestamp - 1).toNat = w.licenseExpiry.toNat - w.currentTimestamp.toNat - 1 := by
  have hlt' := UInt64.lt_iff_toNat_lt.1 hlt
  have hsub := UInt64.toNat_sub_of_le _ _ (UInt64.le_of_lt hlt)
  rw [UInt64.toNat_sub_of_le, hsub]
  · rfl
  · rw [UInt64.le_iff_toNat_le, hsub]
    show 1 ≤ _
    omega

theorem witness_fits (hlt : w.currentTimestamp < w.licenseExpiry)
    (hle : w.licenseExpiry.toNat ≤ w.currentTimestamp.toNat + 2 ^ 32) :
    (witnessData w).Fits (rangeBits w) (BaseElement.new w.currentTimestamp.toNat) where
  unencumbered := rfl
  licensed := rfl
  direction job _ hm := by
    have h27 : job ≠ 27 := by
      rintro rfl
      exact absurd hm (by decide)
    show auxOf w job 1 = 0 ∨ auxOf w job 1 = 1
    unfold auxOf
    rw [if_neg h27]
    cases w.merkleBits.getD (job - 2) false <;> split_ifs <;> simp
  bits i := by
    rw [rangeBits_apply]
    exact bitCell_bool _ i
  sum := by
    have hlt' := UInt64.lt_iff_toNat_lt.1 hlt
    simp only [rangeBits_apply]
    rw [sum_bitCell, diff_toNat w hlt, Nat.mod_eq_of_lt (by omega)]
    show _ = BaseElement.new w.licenseExpiry.toNat - _ - 1
    unfold BaseElement.new
    rw [Nat.cast_sub (by omega), Nat.cast_sub (by omega), Nat.cast_one]

/-- The digest after the first Merkle jobs folds the first siblings and bits over the leaf. -/
theorem digest_fold (hs : w.merkleSiblings.length = 25) (hb : w.merkleBits.length = 25) : ∀ n ≤ 25,
    (witnessData w).digest (1 + n) =
      foldPath nodeHash ((witnessData w).digest 1) ((w.merkleSiblings.zip w.merkleBits).take n)
  | 0, _ => rfl
  | n + 1, hn => by
    have hzip : (w.merkleSiblings.zip w.merkleBits)[n]? =
        some (w.merkleSiblings.getD n 0, w.merkleBits.getD n false) := by
      rw [List.getElem?_zip_eq_some, List.getD_eq_getElem?_getD, List.getD_eq_getElem?_getD,
        List.getElem?_eq_getElem (by omega), List.getElem?_eq_getElem (by omega)]
      exact ⟨rfl, rfl⟩
    rw [List.take_add_one, hzip, Option.toList_some, foldPath_append, ← digest_fold hs hb n (by omega)]
    rw [show 1 + (n + 1) = 2 + n by omega, JobData.digest, input_merkle w (by omega) _ _ rfl rfl, ← absorb_three,
      ← nodeHash_def]
    simp only [foldPath, join]
    cases w.merkleBits.getD n false <;> rfl

theorem digest_owner : (witnessData w).digest 0 =
    Air.hash [BaseElement.new domainOwnerCommitment, w.ownerSecret, w.propertyId] :=
  (hash_def _).symm

theorem digest_leaf : (witnessData w).digest 1 =
    Air.hash [BaseElement.new domainLeaf, w.registryId,
      Air.hash [BaseElement.new domainOwnerCommitment, w.ownerSecret, w.propertyId], 0, 1,
      BaseElement.new w.licenseExpiry.toNat] := by
  rw [← digest_owner, hash_def]
  rfl

theorem digest_nullifier : (witnessData w).digest 27 =
    Air.hash [BaseElement.new domainNullifier, w.ownerSecret, w.propertyId, w.purpose, w.requestNonce] :=
  (hash_def _).symm

/-- The root of the last Merkle job folds all siblings and bits over the leaf. -/
theorem digest_root (hs : w.merkleSiblings.length = 25) (hb : w.merkleBits.length = 25) : (witnessData w).digest 26 =
    foldPath nodeHash (Air.hash [BaseElement.new domainLeaf, w.registryId,
      Air.hash [BaseElement.new domainOwnerCommitment, w.ownerSecret, w.propertyId], 0, 1,
      BaseElement.new w.licenseExpiry.toNat]) (w.merkleSiblings.zip w.merkleBits) := by
  have hfold := digest_fold w hs hb 25 le_rfl
  rwa [List.take_of_length_le (by rw [List.length_zip, hs, hb]; exact le_rfl), digest_leaf] at hfold

end

/-- For every witness with full paths and an expiry at most `2^32` after the timestamp, the builder
returns a table that satisfies all assertions and all 256 cyclic transitions, with the root folded
from the leaf over the given path and the nullifier of the given pair. -/
theorem buildTrace_complete (w : Witness) (hs : w.merkleSiblings.length = treeDepth)
    (hb : w.merkleBits.length = treeDepth) (hlt : w.currentTimestamp < w.licenseExpiry)
    (hle : w.licenseExpiry.toNat ≤ w.currentTimestamp.toNat + 2 ^ 32) :
    ∃ cols pubInputs, buildTrace w = some (cols, pubInputs) ∧ AssertionsHold pubInputs cols ∧
      (∀ i < traceLength, TransitionHolds pubInputs cols i) ∧
      pubInputs.merkleRoot = foldPath nodeHash
        (Air.hash [BaseElement.new domainLeaf, w.registryId,
          Air.hash [BaseElement.new domainOwnerCommitment, w.ownerSecret, w.propertyId], 0, 1,
          BaseElement.new w.licenseExpiry.toNat]) (w.merkleSiblings.zip w.merkleBits) ∧
      pubInputs.nullifier =
        Air.hash [BaseElement.new domainNullifier, w.ownerSecret, w.propertyId, w.purpose, w.requestNonce] := by
  have hf := witness_fits w hlt hle
  refine ⟨_, _, buildTrace_eq w hs hb hlt, JobData.assertions_of_fits hf,
    fun i hi => JobData.transition_of_fits hf hi fun _ => rfl, digest_root w hs hb, digest_nullifier w⟩

/-- A witness with a one-second licence, at the last index. -/
def sampleWitness : Witness where
  registryId := 1
  purpose := BaseElement.new 7
  requestNonce := 0
  currentTimestamp := 1000
  ownerSecret := BaseElement.new 42
  propertyId := BaseElement.new 5
  licenseExpiry := 1001
  merkleSiblings := List.replicate 25 0
  merkleBits := List.replicate 25 true

theorem buildTrace_complete_sample : ∃ cols pubInputs, buildTrace sampleWitness = some (cols, pubInputs) ∧
    AssertionsHold pubInputs cols ∧ (∀ i < traceLength, TransitionHolds pubInputs cols i) ∧
    pubInputs.merkleRoot = foldPath nodeHash
      (Air.hash [BaseElement.new domainLeaf, 1, Air.hash [BaseElement.new domainOwnerCommitment, BaseElement.new 42,
        BaseElement.new 5], 0, 1, BaseElement.new 1001]) ((List.replicate 25 0).zip (List.replicate 25 true)) ∧
    pubInputs.nullifier = Air.hash [BaseElement.new domainNullifier, BaseElement.new 42,
      BaseElement.new 5, BaseElement.new 7, 0] :=
  buildTrace_complete sampleWitness rfl rfl (by decide) (by decide)

end Yaqeen.Prover
