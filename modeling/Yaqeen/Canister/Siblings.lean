/-
What an accepted record of one property does to the proof of another: the paths of the two leaves
meet at one level, so that only the sibling there changes, and the refreshed proof still folds the
other leaf to the root.
-/
import Yaqeen.Canister.MerkleProof

namespace Yaqeen.Canister

open Air FinMap Runs HashTree

/-- An accepted submission has a leaf, returns the new root, and leaves the state with that leaf. -/
theorem submitRecordImpl_accepted {s s' : State} {caller : Principal} {record : Record} {root : String}
    (h : submitRecordImpl s caller record.propertyId record.ownerCommitment record.encumbranceFlag
      record.licenseStatus record.licenseExpiry = (.ok root, s')) :
    ∃ leaf, leafHash record = .ok leaf ∧ s' = submit s record leaf ∧ root = feToString s'.currentRoot := by
  rw [submitRecordImpl_eq] at h
  split at h
  · split at h
    · cases h
    · rename_i leaf hleaf
      cases h
      exact ⟨leaf, hleaf, rfl, rfl⟩
  · cases h

section

variable {s : State} {leaf : ℕ → BaseElement} (hfull : ∀ l ≤ treeDepth, ∀ i, nodeAt s l i = fullNode nodeHash leaf l i)
  {record : Record} {i : ℕ} (hi : (assignIndex s record.propertyId).1 = i) (x : BaseElement)

include hfull hi

/-- The siblings above the new leaf itself stay. -/
theorem submit_own_path {m : ℕ} (hm : m ≤ treeDepth) :
    path (nodeAt (submit s record x)) m 0 i = path (fullNode nodeHash leaf) m 0 i := by
  refine path_congr m 0 i fun k hk => ?_
  rw [Nat.zero_add, submit_nodes hfull hi x k (by omega), fullNode_update_of_ne leaf i x (sibling_ne _)]

/-- Of the siblings above another leaf, the one where the paths meet becomes the fold of the new leaf
up to it, and the others stay. -/
theorem submit_sibling {j d l : ℕ} (hd : HighestDiff i j d) (hl : l < treeDepth) :
    nodeAt (submit s record x) l (sibling (j / 2 ^ l)) =
      if l = d then foldPath nodeHash x (path (nodeAt (submit s record x)) d 0 i)
      else nodeAt s l (sibling (j / 2 ^ l)) := by
  rw [submit_nodes hfull hi x l hl.le, fullNode_update_sibling leaf hd, hfull l hl.le]
  split
  · rename_i hld
    rw [submit_own_path hfull hi x (by omega)]
  · rfl

end

/-- A served proof lists the texts of the siblings on the path of its leaf. -/
theorem path_sibling_text (s : State) {l : ℕ} (i : ℕ) (hl : l < treeDepth) :
    ((path (nodeAt s) treeDepth 0 i).map fun q => feToString q.1)[l]? =
      some (feToString (nodeAt s l (sibling (i / 2 ^ l)))) := by
  rw [List.getElem?_map, path_getElem? treeDepth 0 i l hl, Nat.zero_add, Option.map_some]

/-- An accepted record of property `a` leaves the record, the index and the path bits of every other
registered property `b` as they were, and its siblings too, except at the level numbered by the highest
bit in which the two indices differ: there the new sibling is the fold of `a`'s new leaf over `a`'s
siblings below. With both indices inside the tree that level exists, and the refreshed proof folds `b`'s
leaf to the new root. -/
theorem update_changes_one_sibling {tr : Trace} {s s' : State} (h : CanisterRun tr s) {caller : Principal}
    {record : Record} {root : String}
    (hsub : submitRecordImpl s caller record.propertyId record.ownerCommitment record.encumbranceFlag
      record.licenseStatus record.licenseExpiry = (.ok root, s'))
    {b : UInt64} (hb : b ≠ record.propertyId) {r : Record} (hr : s.records.lookup b = some r) :
    ∃ leaf leafB proofA proof proof' siblingsA siblings' d,
      leafHash record = .ok leaf ∧ leafHash r = .ok leafB ∧
      getMerkleProofImpl s' record.propertyId = some proofA ∧ proofA.siblings.mapM parseFe = .ok siblingsA ∧
      getMerkleProofImpl s b = some proof ∧
      getMerkleProofImpl s' b = some proof' ∧ proof'.siblings.mapM parseFe = .ok siblings' ∧
      getRecordImpl s' b = some r ∧ proof'.leafIndex = proof.leafIndex ∧ proof'.pathBits = proof.pathBits ∧
      proof.siblings.length = treeDepth ∧ proof'.siblings.length = treeDepth ∧
      HighestDiff proofA.leafIndex proof.leafIndex d ∧
      (∀ l < treeDepth, proof'.siblings[l]? =
        if l = d then some (feToString (foldPath nodeHash leaf ((siblingsA.zip proofA.pathBits).take d)))
        else proof.siblings[l]?) ∧
      (proofA.leafIndex < 2 ^ treeDepth → proof.leafIndex < 2 ^ treeDepth →
        d < treeDepth ∧ foldPath nodeHash leafB (siblings'.zip proof'.pathBits) = s'.currentRoot ∧
        proof'.root = feToString s'.currentRoot ∧ root = feToString s'.currentRoot) := by
  have hinv := treeInv_reachable h
  obtain ⟨x, hx, rfl, hroot⟩ := submitRecordImpl_accepted hsub
  have hinv' : TreeInv (submit s record x) := hinv.submit hx
  obtain ⟨leaf, hl, hfull⟩ := hinv.nodes
  obtain ⟨j, hj⟩ := (hinv.registered b).1 ⟨r, hr⟩
  generalize hi : (assignIndex s record.propertyId).1 = i
  have ha' : (submit s record x).leafIndexByProperty.lookup record.propertyId = some i := by
    rw [submit_lookup, if_pos rfl, hi]
  have hj' : (submit s record x).leafIndexByProperty.lookup b = some j := by
    rw [submit_lookup, if_neg hb, hj]
  have hr' : (submit s record x).records.lookup b = some r := by
    rw [submit_records, lookup_insert, if_neg hb, hr]
  have hij : i ≠ j := by
    rintro rfl
    exact hb (hinv'.index_inj b _ _ hj' ha')
  obtain ⟨d, hd⟩ := exists_highestDiff hij
  have hleafB := hl.assigned b j r hj hr
  refine ⟨x, leaf j, _, _, _, _, _, d, hx, hleafB, getMerkleProofImpl_eq ha', mapM_parseFe_path _,
    getMerkleProofImpl_eq hj, getMerkleProofImpl_eq hj', mapM_parseFe_path _, hr', rfl, path_bits _ _ _ _ _, ?_, ?_, hd,
    fun l hl => ?_, fun hilt hjlt => ⟨hd.lt hilt hjlt, ?_, rfl, hroot⟩⟩
  · rw [List.length_map, path_length]
  · rw [List.length_map, path_length]
  · rw [path_sibling_text _ _ hl, path_sibling_text _ _ hl, submit_sibling hfull hi x hd hl, zip_path]
    split
    · rename_i hld
      rw [path_take 0 i (by omega)]
    · rfl
  · rw [zip_path, hinv'.path_to_top hj' hr' hleafB, submit_currentRoot, hi, Nat.div_eq_of_lt hjlt,
      Nat.div_eq_of_lt hilt]

/-- Property 2 enters beside properties 0 and 1: the proof of property 0 changes at level 1 only. -/
theorem update_changes_one_sibling_enrolled : ∃ proof proof',
    getMerkleProofImpl (enrolled 2) (plainRecord 0).propertyId = some proof ∧
    getMerkleProofImpl (enrolled 3) (plainRecord 0).propertyId = some proof' ∧
    ∀ l < treeDepth, l ≠ 1 → proof'.siblings[l]? = proof.siblings[l]? := by
  obtain ⟨tr, h⟩ := enrolled_run 2
  have hsub : submitRecordImpl (enrolled 2) registrar (plainRecord 2).propertyId (plainRecord 2).ownerCommitment
      (plainRecord 2).encumbranceFlag (plainRecord 2).licenseStatus (plainRecord 2).licenseExpiry =
      (.ok (feToString (enrolled 3).currentRoot), enrolled 3) := by
    rw [submitRecordImpl_eq, enrolled_admin, if_pos rfl, leafHash_plainRecord]
    rfl
  have h01 : (plainRecord 0).propertyId ≠ (plainRecord 1).propertyId := by decide
  have h02 : (plainRecord 0).propertyId ≠ (plainRecord 2).propertyId := by decide
  have hr : (enrolled 2).records.lookup (plainRecord 0).propertyId = some (plainRecord 0) := by
    rw [enrolled, submit_records, lookup_insert, if_neg h01, enrolled, submit_records, lookup_insert, if_pos rfl]
  obtain ⟨leaf, leafB, proofA, proof, proof', siblingsA, siblings', d, -, -, hA, -, hp, hp', -, -, -, -, -, -,
    hd, hs, -⟩ := update_changes_one_sibling h hsub h02 hr
  refine ⟨proof, proof', hp, hp', fun l hl hne => ?_⟩
  have hindexA : proofA.leafIndex = 2 := by
    rw [getMerkleProofImpl_eq ((enrolled_index 3 (by norm_num)).2.2 _)] at hA
    cases hA
    rfl
  have hindex : proof.leafIndex = 0 := by
    rw [getMerkleProofImpl_eq ((enrolled_index 2 (by norm_num)).2.2 _)] at hp
    cases hp
    rfl
  have hd1 : d = 1 := by
    have hdiff := hd.differ
    rw [hindexA, hindex, Nat.zero_testBit, show (2 : ℕ) = 2 ^ 1 from rfl, Nat.testBit_two_pow] at hdiff
    simpa [eq_comm] using hdiff
  rw [hs l hl, if_neg (hd1 ▸ hne)]

end Yaqeen.Canister
