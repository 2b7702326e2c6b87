/-
The Merkle proofs the canister serves: their siblings and bits are the path of the tree above the
leaf, so they fold the record's leaf to the current root, and the prover's trace built from them
shows the root of a challenge issued in the same state.
-/
import Yaqeen.Canister.Tree
import Yaqeen.Prover.Completeness

namespace Yaqeen.Canister

open Air FinMap Runs HashTree Prover

/-- The loop lists the texts of the siblings and the bits of the path. -/
theorem merkleProofLoop_eq (s : State) : ∀ n level idx, merkleProofLoop s n level idx =
    ((path (nodeAt s) n level idx).map fun p => feToString p.1, (path (nodeAt s) n level idx).map Prod.snd)
  | 0, _, _ => rfl
  | n + 1, level, idx => by
    unfold merkleProofLoop path
    rw [merkleProofLoop_eq s n, siblingIndex_eq]
    rfl

theorem getMerkleProofImpl_eq {s : State} {p : UInt64} {i : ℕ} (hi : s.leafIndexByProperty.lookup p = some i) :
    getMerkleProofImpl s p = some ⟨i, (path (nodeAt s) treeDepth 0 i).map fun q => feToString q.1,
      (path (nodeAt s) treeDepth 0 i).map Prod.snd, feToString s.currentRoot⟩ := by
  unfold getMerkleProofImpl
  rw [hi]
  simp only [merkleProofLoop_eq]

/-- A challenge names the root of the state it is issued in. -/
theorem issued_merkleRoot {s s' : State} {caller : Principal} {nowNs : Int} {purpose : UInt64} {view : ChallengeView}
    (h : requestChallengeImpl s caller nowNs purpose = (.ok view, s')) : view.merkleRoot = feToString s.currentRoot := by
  obtain ⟨e, -, hthrottle⟩ | ⟨ha, hr, -⟩ :=
    checkAndUpdateThrottle_cases s.lastChallengeCallAt s.challengeThrottleLog caller nowNs
  · rw [requestChallengeImpl_throttled hthrottle] at h
    cases h
  · rw [requestChallengeImpl_ok purpose ha hr] at h
    cases h
    rfl

theorem mapM_parseFe (vs : List BaseElement) : (vs.map feToString).mapM parseFe = .ok vs := by
  rw [List.mapM_map, mapM_ok (f := parseFe ∘ feToString) (g := id) parseFe_feToString, List.map_id]

/-- The texts of the siblings of a path parse to the siblings. -/
theorem mapM_parseFe_path (ps : List (BaseElement × Bool)) :
    (ps.map fun q => feToString q.1).mapM parseFe = .ok (ps.map Prod.fst) := by
  have h := mapM_parseFe (ps.map Prod.fst)
  rwa [List.map_map] at h

theorem zip_path (ps : List (BaseElement × Bool)) : (ps.map Prod.fst).zip (ps.map Prod.snd) = ps := by
  rw [List.zip_map', List.map_id']

/-- The bits of a path from a leaf are the binary digits of its index, lowest first. -/
theorem path_bit {N : ℕ → ℕ → BaseElement} {n i k : ℕ} (h : k < n) :
    ((path N n 0 i).map Prod.snd)[k]? = some (i.testBit k) := by
  rw [List.getElem?_map, path_getElem? n 0 i k h, Nat.testBit_eq_decide_div_mod_eq]
  rfl

/-- A record's leaf and the root its proof shows, as the trace builder computes them. -/
theorem leafHash_licensed {r : Record} {secret pid : BaseElement} (he : r.encumbranceFlag = 0)
    (hl : r.licenseStatus = 1)
    (hc : parseFe r.ownerCommitment = .ok (Air.hash [BaseElement.new domainOwnerCommitment, secret, pid])) :
    leafHash r = .ok (Air.hash [BaseElement.new domainLeaf, fe registryId,
      Air.hash [BaseElement.new domainOwnerCommitment, secret, pid], 0, 1, BaseElement.new r.licenseExpiry.toNat]) := by
  have h0 : fe 0 = 0 := Nat.cast_zero
  have h1 : fe 1 = 1 := Nat.cast_one
  rw [leafHash_ok hc, he, hl, h0, h1]
  rfl

/-- In every reachable state with at most `2^25` properties, the proof of a registered property lists
25 siblings and the binary digits of its index, and folds the leaf of its record to the current root,
which is also the root it names. For a licensed record whose commitment opens, a trace built from that
proof shows the root of any challenge issued in that state. -/
theorem merkle_proof_authenticates {tr : Trace} {s : State} (h : CanisterRun tr s)
    (hcap : s.leafIndexByProperty.keys.card ≤ 2 ^ treeDepth) {p : UInt64} {r : Record}
    (hr : s.records.lookup p = some r) :
    ∃ proof siblings leaf, getMerkleProofImpl s p = some proof ∧ leafHash r = .ok leaf ∧
      s.leafIndexByProperty.lookup p = some proof.leafIndex ∧
      proof.siblings.length = treeDepth ∧ proof.pathBits.length = treeDepth ∧
      proof.leafIndex < 2 ^ treeDepth ∧ (∀ k < treeDepth, proof.pathBits[k]? = some (proof.leafIndex.testBit k)) ∧
      proof.siblings.mapM parseFe = .ok siblings ∧
      foldPath nodeHash leaf (siblings.zip proof.pathBits) = s.currentRoot ∧
      parseFe proof.root = .ok s.currentRoot ∧
      ∀ secret pid, r.encumbranceFlag = 0 → r.licenseStatus = 1 →
        parseFe r.ownerCommitment = .ok (Air.hash [BaseElement.new domainOwnerCommitment, secret, pid]) →
        ∀ w : Witness, w.registryId = fe 1 → w.ownerSecret = secret → w.propertyId = pid →
          w.licenseExpiry = r.licenseExpiry → w.currentTimestamp < r.licenseExpiry → w.merkleSiblings = siblings →
          w.merkleBits = proof.pathBits →
          ∃ cols pubInputs, buildTrace w = some (cols, pubInputs) ∧
            ∀ caller nowNs purpose view s', requestChallengeImpl s caller nowNs purpose = (.ok view, s') →
              feToString pubInputs.merkleRoot = view.merkleRoot := by
  have hinv := treeInv_reachable h
  have hlt : ∀ p i, s.leafIndexByProperty.lookup p = some i → i < 2 ^ treeDepth := fun p i hp =>
    lt_of_lt_of_le (hinv.index_lt p i hp) hcap
  obtain ⟨i, hi⟩ := (hinv.registered p).1 ⟨r, hr⟩
  obtain ⟨leaf, hl, -⟩ := hinv.nodes
  have hleaf := hl.assigned p i r hi hr
  have hfold := hinv.path_to_root hlt hi hr hleaf
  generalize hps : path (nodeAt s) treeDepth 0 i = ps at hfold
  have hlen : ps.length = treeDepth := by rw [← hps, path_length]
  have hproof := getMerkleProofImpl_eq hi
  rw [hps] at hproof
  refine ⟨_, ps.map Prod.fst, leaf i, hproof, hleaf, hi, ?_, ?_, hlt p i hi, fun k hk => ?_, ?_, ?_,
    parseFe_feToString _, ?_⟩
  · rw [List.length_map, hlen]
  · rw [List.length_map, hlen]
  · rw [← hps]
    exact path_bit hk
  · exact mapM_parseFe_path ps
  · rw [zip_path]
    exact hfold
  · rintro secret pid he hls hc w hreg rfl rfl hexp hts hsib hbits
    have hs : w.merkleSiblings.length = 25 := by rw [hsib, List.length_map]; exact hlen
    have hb : w.merkleBits.length = 25 := by rw [hbits, List.length_map]; exact hlen
    refine ⟨_, _, buildTrace_eq w hs hb (hexp ▸ hts), fun caller nowNs purpose view s' hview => ?_⟩
    have hroot : (witnessData w).digest 26 = s.currentRoot := by
      have hlic := leafHash_licensed he hls hc
      rw [hleaf] at hlic
      rw [digest_root w hs hb, hsib, hbits, zip_path, hreg, hexp, ← hfold]
      exact congrArg (fun x => foldPath nodeHash x ps) (Except.ok.inj hlic).symm
    show feToString ((witnessData w).digest 26) = view.merkleRoot
    rw [issued_merkleRoot hview, hroot]

/-- The middle one of three properties. -/
theorem merkle_proof_enrolled : ∃ proof siblings cols pubInputs,
    getMerkleProofImpl (enrolled 3) (plainRecord 1).propertyId = some proof ∧
    proof.siblings.mapM parseFe = .ok siblings ∧
    buildTrace ⟨fe 1, fe 7, 0, 50, fe 42, fe 5, 100, siblings, proof.pathBits⟩ = some (cols, pubInputs) ∧
    ∀ caller nowNs purpose view s', requestChallengeImpl (enrolled 3) caller nowNs purpose = (.ok view, s') →
      feToString pubInputs.merkleRoot = view.merkleRoot := by
  obtain ⟨tr, h⟩ := enrolled_run 3
  have hcap : (enrolled 3).leafIndexByProperty.keys.card ≤ 2 ^ treeDepth := by
    rw [(enrolled_index 3 (by norm_num)).2.1]
    norm_num
  have hne : (plainRecord 1).propertyId ≠ (plainRecord 2).propertyId := by decide
  have hr : (enrolled 3).records.lookup (plainRecord 1).propertyId = some (plainRecord 1) := by
    rw [enrolled, submit_records, lookup_insert, if_neg hne, enrolled, submit_records, lookup_insert, if_pos rfl]
  obtain ⟨proof, siblings, leaf, hproof, -, -, -, -, -, -, hsib, -, -, hbuild⟩ := merkle_proof_authenticates h hcap hr
  have hts : (50 : UInt64) < (plainRecord 1).licenseExpiry := by
    show (50 : UInt64) < 100
    decide
  obtain ⟨cols, pubInputs, hb, hview⟩ := hbuild (fe 42) (fe 5) rfl rfl (parseFe_feToString plainCommitment)
    ⟨fe 1, fe 7, 0, 50, fe 42, fe 5, 100, siblings, proof.pathBits⟩ rfl rfl rfl rfl hts rfl rfl
  exact ⟨proof, siblings, cols, pubInputs, hproof, hsib, hb, hview⟩

end Yaqeen.Canister
