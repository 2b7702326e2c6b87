/-
The language of the circuit: the public inputs that some table satisfies, read off in both directions.
From a satisfying table come the values it shows; from such values comes a table. The commitment in the
leaf is free, since every digest is that of some lanes the first row may hold. With the exempted last
transition enforced as well it is the commitment of the pair behind the nullifier, and the language is
that of the documented statement.
-/
import Yaqeen.Air.RangeCheck
import Yaqeen.Air.Permutation

namespace Yaqeen.Air

open HashTree

/-! ## The statement -/

/-- The commitment to an owner's secret for a property. -/
def ownerCommitment (secret pid : BaseElement) : BaseElement :=
  hash [BaseElement.new domainOwnerCommitment, secret, pid]

/-- The leaf of an unencumbered, licensed property. -/
def eligibleLeaf (registryId commitment expiry : BaseElement) : BaseElement :=
  hash [BaseElement.new domainLeaf, registryId, commitment, 0, 1, expiry]

/-- What a table shows of its public inputs: the leaf with this commitment, of a license that lapses
`n + 1` seconds after the timestamp, folds along this path to the root, and the nullifier is that of
this pair. -/
structure Shows (pubInputs : PublicInputs) (commitment secret pid : BaseElement) (path : List (BaseElement × Bool))
    (n : ℕ) : Prop where
  length : path.length = treeDepth
  small : n < 2 ^ 32
  root : foldPath nodeHash
    (eligibleLeaf pubInputs.registryId commitment (pubInputs.currentTimestamp + 1 + BaseElement.new n)) path =
      pubInputs.merkleRoot
  nullifier : hash [BaseElement.new domainNullifier, secret, pid, pubInputs.purpose, pubInputs.requestNonce] =
    pubInputs.nullifier

/-- The values a satisfying table shows. -/
theorem shows_of_satisfies {pubInputs : PublicInputs} {t : TraceTable} (h : Satisfies pubInputs t) :
    ∃ n, Shows pubInputs (t.row 7 s0) (t.row 0 heldSecret) (t.row 0 heldPid) ((List.range 25).map t.merkleStep) n := by
  obtain ⟨n, hn, hexpiry⟩ := expiry_range h
  refine ⟨n, by simp, hn, ?_, (nullifier_digest h).symm⟩
  rw [← merkle_root h, leaf_digest h, hexpiry]
  rfl

/-! ## A table for the statement -/

/-- The auxiliary values of a table that shows a statement. -/
def statementAux (pubInputs : PublicInputs) (path : List (BaseElement × Bool)) (n job : ℕ) : Fin 4 → BaseElement :=
  if job = 1 then ![pubInputs.registryId, 0, 1, pubInputs.currentTimestamp + 1 + BaseElement.new n]
  else if 2 ≤ job ∧ job < 27 then
    ![(path.getD (job - 2) (0, false)).1, if (path.getD (job - 2) (0, false)).2 then 1 else 0, 0, 0]
  else if job = 27 then ![pubInputs.purpose, pubInputs.requestNonce, 0, 0]
  else ![0, 0, 0, 0]

/-- The table starts from any lanes. -/
def statementData (pubInputs : PublicInputs) (first : Lanes BaseElement) (secret pid : BaseElement)
    (path : List (BaseElement × Bool)) (n : ℕ) : JobData where
  secret := secret
  pid := pid
  first := first
  aux := statementAux pubInputs path n

theorem statementAux_merkle (pubInputs : PublicInputs) (path : List (BaseElement × Bool)) (n : ℕ) {level : ℕ}
    (hl : level < 25) : statementAux pubInputs path n (2 + level) =
      ![(path.getD level (0, false)).1, if (path.getD level (0, false)).2 then 1 else 0, 0, 0] := by
  unfold statementAux
  rw [if_neg (by omega), if_pos (by omega), Nat.add_sub_cancel_left]

section

variable {pubInputs : PublicInputs} {first : Lanes BaseElement} {secret pid : BaseElement}
  {path : List (BaseElement × Bool)} {n : ℕ}

theorem statement_direction (job : ℕ) (h1 : job ≠ 1) (h27 : job ≠ 27) :
    statementAux pubInputs path n job 1 = 0 ∨ statementAux pubInputs path n job 1 = 1 := by
  unfold statementAux
  rw [if_neg h1, if_neg h27]
  split
  · cases (path.getD (job - 2) (0, false)).2
    · exact .inl rfl
    · exact .inr rfl
  · exact .inl rfl

theorem statement_fits (hn : n < 2 ^ 32) :
    (statementData pubInputs first secret pid path n).Fits (bitCell n) pubInputs.currentTimestamp where
  unencumbered := rfl
  licensed := rfl
  direction job _ hm := by
    refine statement_direction job ?_ ?_ <;> rintro rfl <;> exact absurd hm (by decide)
  bits := bitCell_bool n
  sum := by
    rw [sum_bitCell, Nat.mod_eq_of_lt hn]
    show BaseElement.new n = pubInputs.currentTimestamp + 1 + BaseElement.new n - pubInputs.currentTimestamp - 1
    ring

/-- The Merkle jobs of the table walk the path, -/
theorem statement_merkleStep {level : ℕ} {step : BaseElement × Bool} (hl : level < 25)
    (hstep : path.getD level (0, false) = step) :
    ((statementData pubInputs first secret pid path n).table (bitCell n) 32).merkleStep level = step := by
  have haux := statementAux_merkle pubInputs path n hl
  rw [hstep] at haux
  have hA := JobData.row_aux (statementData pubInputs first secret pid path n) (bitCell n) (2 + level) (by omega) 0
  have hB := JobData.row_aux (statementData pubInputs first secret pid path n) (bitCell n) (2 + level) (by omega) 1
  rw [show (statementData pubInputs first secret pid path n).aux (2 + level) = _ from haux] at hA hB
  have hbit : ((statementData pubInputs first secret pid path n).table (bitCell n) 32).row (8 * (2 + level)) auxB =
      if step.2 then 1 else 0 := hB
  unfold TraceTable.merkleStep
  rw [show jobStartRow (jobMerkleFirst + level) = 8 * (2 + level) from Nat.mul_comm _ _, hbit]
  refine Prod.ext hA ?_
  cases step.2 <;> simp

theorem statement_path (hlen : path.length = 25) :
    (List.range 25).map ((statementData pubInputs first secret pid path n).table (bitCell n) 32).merkleStep = path := by
  apply List.ext_getElem?
  intro level
  rw [List.getElem?_map]
  by_cases hl : level < 25
  · rw [List.getElem?_range hl, Option.map_some, statement_merkleStep hl rfl, List.getD_eq_getElem?_getD,
      List.getElem?_eq_getElem (hlen ▸ hl), Option.getD_some]
  · rw [List.getElem?_eq_none (by simpa using hl), List.getElem?_eq_none (by omega)]
    rfl

variable (h : Shows pubInputs (runRounds 7 first 0) secret pid path n)

include h

/-- so that the public inputs the table shows are those of the statement. -/
theorem Shows.publicInputs {d : JobData} (hd : statementData pubInputs first secret pid path n = d) :
    d.publicInputs pubInputs.currentTimestamp = pubInputs := by
  have hsat := JobData.satisfies_of_fits (hd ▸ statement_fits h.small)
  have hcommitment : (d.table (bitCell n) 32).row 7 s0 = runRounds 7 first 0 := by
    subst hd
    exact JobData.row_digest _ _ 0 (by omega)
  have hexpiry : (d.table (bitCell n) 32).row 8 auxD = pubInputs.currentTimestamp + 1 + BaseElement.new n := by
    subst hd
    exact JobData.row_aux _ _ 1 (by omega) 3
  have hheld : (d.table (bitCell n) 32).row 0 heldSecret = secret ∧ (d.table (bitCell n) 32).row 0 heldPid = pid := by
    subst hd
    exact ⟨rfl, rfl⟩
  have hfields : d.publicInputs pubInputs.currentTimestamp =
      { pubInputs with merkleRoot := d.digest 26, nullifier := d.digest 27 } := by
    subst hd
    rfl
  have hroot := merkle_root hsat
  have hnullifier := nullifier_digest hsat
  rw [leaf_digest hsat, hcommitment, hexpiry, ← hd, statement_path h.length, hd, hfields] at hroot
  rw [hheld.1, hheld.2, hfields] at hnullifier
  have hroot : d.digest 26 = pubInputs.merkleRoot := hroot.symm.trans h.root
  have hnullifier : d.digest 27 = pubInputs.nullifier := hnullifier.trans h.nullifier
  rw [hfields, hroot, hnullifier]

theorem Shows.satisfies :
    Satisfies pubInputs ((statementData pubInputs first secret pid path n).table (bitCell n) 32) := by
  have hfits : (statementData pubInputs first secret pid path n).Fits (bitCell n) pubInputs.currentTimestamp :=
    statement_fits h.small
  have hsat := JobData.satisfies_of_fits hfits
  rwa [h.publicInputs rfl] at hsat

end

/-! ## The language -/

/-- Every digest is that of some lanes. -/
theorem exists_lanes (d : BaseElement) : ∃ first : Lanes BaseElement, runRounds 7 first 0 = d := by
  obtain ⟨first, hfirst⟩ := (runRounds_bijective 7).2 fun _ => d
  exact ⟨first, congrFun hfirst 0⟩

/-- Some table satisfies the circuit for public inputs exactly when they show the leaf of some commitment,
whichever, below the root and the nullifier of some pair; some table satisfies the exempted last
transition as well exactly when that commitment is the pair's own. -/
theorem language_exact (pubInputs : PublicInputs) :
    ((∃ t, Satisfies pubInputs t) ↔
      ∃ commitment secret pid path n, Shows pubInputs commitment secret pid path n) ∧
    ((∃ t, Satisfies pubInputs t ∧ TransitionHolds pubInputs t (traceLength - 1)) ↔
      ∃ secret pid path n, Shows pubInputs (ownerCommitment secret pid) secret pid path n) := by
  constructor
  · constructor
    · rintro ⟨t, h⟩
      obtain ⟨n, hn⟩ := shows_of_satisfies h
      exact ⟨_, _, _, _, n, hn⟩
    · rintro ⟨commitment, secret, pid, path, n, h⟩
      obtain ⟨first, rfl⟩ := exists_lanes commitment
      exact ⟨_, h.satisfies⟩
  · constructor
    · rintro ⟨t, h, hlast⟩
      obtain ⟨n, hn⟩ := shows_of_satisfies h
      have hopens := digest_job h 0 (by omega)
      rw [Nat.mul_zero, owner_inputs h hlast, ← hash_def] at hopens
      rw [show t.row 7 s0 = ownerCommitment _ _ from hopens] at hn
      exact ⟨_, _, _, n, hn⟩
    · rintro ⟨secret, pid, path, n, h⟩
      obtain ⟨first, hfirst⟩ : ∃ first, first = absorb [BaseElement.new domainOwnerCommitment, secret, pid] := ⟨_, rfl⟩
      have hopens : ownerCommitment secret pid = runRounds 7 first 0 := by
        rw [hfirst]
        exact hash_def _
      rw [hopens] at h
      have hfits : (statementData pubInputs first secret pid path n).Fits (bitCell n) pubInputs.currentTimestamp :=
        statement_fits h.small
      exact ⟨_, h.satisfies, JobData.transition_of_fits hfits (by decide) fun _ => hfirst⟩

end Yaqeen.Air
