/-
Who can answer a challenge. The owner can: from the record, the Merkle proof and the challenge the
canister serves, the builder makes a table for the very public inputs `verify` checks a proof against,
and with a proof of it the owner's answer is accepted until the challenge expires. So can anyone else: for
an eligible property of anybody some table shows the same root with a nullifier of the caller's own making.
-/
import Yaqeen.Air.Language
import Yaqeen.Canister.Ledger
import Yaqeen.Canister.MerkleProof

namespace Yaqeen.Canister

open Air FinMap Runs HashTree Prover

/-! ## Answers -/

/-- A client returns a challenge with the values it came with and a nullifier. -/
def ChallengeView.submission (view : ChallengeView) (v : BaseElement) : VerifyPublicInputs :=
  ⟨view.registryId, view.merkleRoot, view.purpose, view.requestNonce, view.currentTimestamp, feToString v⟩

/-- The public inputs that the answer to a request is verified against. -/
def Request.statement {tr : Trace} (r : Request tr) (v : BaseElement) : PublicInputs :=
  requestInputs r.transition.pre.currentRoot r.purpose r.view.requestNonce r.now.ns v

/-- At `now`, the requester may still answer with the nullifier `v`: the trace so far holds no `verify` of
its own less than the minimal interval ago, and no accepted proof for this challenge or with this value. -/
structure StillOpen {tr : Trace} (r : Request tr) (now : Time) (v : BaseElement) : Prop where
  latest : ∀ τ ∈ tr, τ.label.time ≤ now.ns
  inTime : now.ns ≤ r.view.expiresAt
  unhurried : ¬ Method.verify.RecentlyPassed tr r.caller now
  unanswered : ∀ a : Acceptance tr, a.challengeId ≠ r.view.challengeId
  unspent : ∀ a : Acceptance tr, parseFe a.publicInputs.nullifier ≠ .ok v

theorem StillOpen.answers {tr : Trace} {r : Request tr} {now : Time} {v : BaseElement} (ho : StillOpen r now v) :
    AnswersRequest r r.caller now r.view.challengeId (r.view.submission v) v :=
  ⟨rfl, rfl, ho.inTime, ho.unanswered, rfl, rfl, rfl, rfl, rfl, parseFe_feToString v, ho.unspent⟩

/-- A challenge is open until it expires where `verify` was never called. -/
theorem StillOpen.of_uncalled {tr : Trace} {r : Request tr} {now : Time} {v : BaseElement}
    (hlatest : ∀ τ ∈ tr, τ.label.time ≤ now.ns) (hin : now.ns ≤ r.view.expiresAt)
    (hno : ∀ τ ∈ tr, ∀ w caller t id proofBytes publicInputs reply,
      τ.label ≠ .call w caller t (.verify id proofBytes publicInputs) reply) : StillOpen r now v := by
  have hnone (a : Acceptance tr) : False := by
    obtain ⟨ok, hver⟩ := a.verified
    exact hno _ (List.mem_of_getElem? a.occurs) _ _ _ _ _ _ _ hver
  refine ⟨hlatest, hin, ?_, fun a => (hnone a).elim, fun a => (hnone a).elim⟩
  rintro ⟨τ, hτ, t, ⟨w, id, proofBytes, publicInputs, reply, hlabel, -⟩, -⟩
  exact hno τ hτ _ _ _ _ _ _ _ hlabel

theorem Requested.caller_ne {s s' : State} {e : Event} {caller : Principal} {now : Time} {purpose : UInt64}
    {view : ChallengeView} (hk : Keyed s) (hst : Step s e s') (hr : Requested e caller now purpose view) :
    caller ≠ Principal.anonymous := by
  obtain ⟨w, rfl⟩ := hr
  cases step_change hk hst with
  | silent _ hr => cases hr
  | admins _ hc => cases hc
  | requested ha => exact ha

section

variable {tr : Trace} {s : State} (h : CanisterRun tr s)

include h

theorem Request.caller_ne (r : Request tr) : r.caller ≠ Principal.anonymous := by
  obtain ⟨hbefore, hst⟩ := h.before r.occurs
  exact r.requested.caller_ne (treeInv_reachable hbefore).keyed hst

theorem Request.timestamp (r : Request tr) :
    BaseElement.new (r.now.ns / 1000000000).toNat = fe r.view.currentTimestamp := by
  rw [r.view_eq h, ← timestamp_toNat r.now]
  rfl

theorem Request.registry (r : Request tr) : r.view.registryId = registryId := by
  rw [r.view_eq h]
  rfl

theorem Request.purpose_eq (r : Request tr) : r.view.purpose = r.purpose := by
  rw [r.view_eq h]
  rfl

theorem Request.statement_eq (r : Request tr) (v : BaseElement) : r.statement v =
    ⟨fe registryId, r.transition.pre.currentRoot, fe r.purpose, fe r.view.requestNonce, fe r.view.currentTimestamp, v⟩ := by
  unfold Request.statement requestInputs
  rw [r.timestamp h]
  rfl

variable (hclock : Clock tr) (hissued : issuedCount tr < 2 ^ 64)

include hclock hissued

/-- An open challenge is answered by any proof of its statement. -/
theorem StillOpen.accepted {r : Request tr} {now : Time} {v : BaseElement} (ho : StillOpen r now v)
    {w : Winterfell} {proofBytes : List UInt8} (hw : w proofBytes (r.statement v) = .accepted) :
    (verify w s r.caller now.ns r.view.challengeId proofBytes (r.view.submission v)).1 = .ok ⟨feToString v⟩ := by
  have hp := ho.answers.passes h hissued ho.latest
  have hrecent := recent_iff .verify h hclock (p := r.caller) ho.latest
  have hstatement : r.statement v = ⟨fe r.challenge.registryId, r.challenge.merkleRoot, fe r.challenge.purpose,
      fe r.challenge.requestNonce, fe r.challenge.currentTimestamp, v⟩ := by
    rw [r.statement_eq h, r.view_eq h]
    rfl
  rw [hstatement] at hw
  exact congrArg Prod.fst (verify_accepts (r.caller_ne h) (fun hr => ho.unhurried (hrecent.1 hr)) hp hw)

end

/-! ## The path of an eligible property -/

section

variable {s : State} {p : UInt64} {record : Record} {now : UInt64} {c : BaseElement}

theorem Eligible.leafHash (h : Eligible s p record now c) :
    leafHash record = .ok (eligibleLeaf (fe registryId) c (fe record.licenseExpiry)) := by
  have h0 : fe 0 = 0 := Nat.cast_zero
  have h1 : fe 1 = 1 := Nat.cast_one
  rw [leafHash_ok h.ownerCommitment, h.unencumbered, h.licensed, h0, h1]
  rfl

/-- The path the canister serves for an eligible property folds its leaf to the root. -/
theorem Eligible.path {tr : Trace} (hr : CanisterRun tr s) (hcap : s.leafIndexByProperty.keys.card ≤ 2 ^ treeDepth)
    (h : Eligible s p record now c) :
    ∃ i ps, ps.length = treeDepth ∧
      getMerkleProofImpl s p = some ⟨i, ps.map fun q => feToString q.1, ps.map Prod.snd, feToString s.currentRoot⟩ ∧
      foldPath nodeHash (eligibleLeaf (fe registryId) c (fe record.licenseExpiry)) ps = s.currentRoot := by
  have hinv := treeInv_reachable hr
  have hlt : ∀ p i, s.leafIndexByProperty.lookup p = some i → i < 2 ^ treeDepth := fun p i hp =>
    lt_of_lt_of_le (hinv.index_lt p i hp) hcap
  obtain ⟨i, hi⟩ := (hinv.registered p).1 ⟨record, h.registered⟩
  exact ⟨i, _, path_length .., getMerkleProofImpl_eq hi, hinv.path_to_root hlt hi h.registered h.leafHash⟩

/-- The distance of an expiry in range is what the range check decomposes. -/
theorem Eligible.expiry (h : Eligible s p record now c) :
    fe record.licenseExpiry = fe now + 1 + BaseElement.new (record.licenseExpiry.toNat - now.toNat - 1) := by
  have hlt := h.unexpired
  have hsum : record.licenseExpiry.toNat = now.toNat + 1 + (record.licenseExpiry.toNat - now.toNat - 1) := by omega
  show (record.licenseExpiry.toNat : BaseElement) = (now.toNat : BaseElement) + 1 + (_ : ℕ)
  calc (record.licenseExpiry.toNat : BaseElement)
      = ((now.toNat + 1 + (record.licenseExpiry.toNat - now.toNat - 1) : ℕ) : BaseElement) := congrArg _ hsum
    _ = _ := by rw [Nat.cast_add, Nat.cast_add, Nat.cast_one]

end

/-! ## Answers to a challenge for a registry with an eligible property -/

/-- What the owner gives the builder: the challenge, the expiry of the record, the pair and the path. -/
def ChallengeView.witness (view : ChallengeView) (record : Record) (secret pid : BaseElement)
    (siblings : List BaseElement) (bits : List Bool) : Witness where
  registryId := fe view.registryId
  purpose := fe view.purpose
  requestNonce := fe view.requestNonce
  currentTimestamp := view.currentTimestamp
  ownerSecret := secret
  propertyId := pid
  licenseExpiry := record.licenseExpiry
  merkleSiblings := siblings
  merkleBits := bits

/-- The public inputs the builder returns are those of the witness, with the two digests. -/
theorem witness_publicInputs (w : Witness) (now : BaseElement) : (witnessData w).publicInputs now =
    ⟨w.registryId, (witnessData w).digest 26, w.purpose, w.requestNonce, now, (witnessData w).digest 27⟩ :=
  rfl

section

variable {tr tr₀ : Trace} {s s₀ : State} (h : CanisterRun tr s) (h₀ : CanisterRun tr₀ s₀)
  (hcap : s₀.leafIndexByProperty.keys.card ≤ 2 ^ treeDepth) {r : Request tr}
  (hroot : s₀.currentRoot = r.transition.pre.currentRoot) {p : UInt64} {record : Record}

include h h₀ hcap hroot

/-- What the owner of an eligible property builds from the Merkle proof served in any state with the root of
the challenge: a table for the statement of the challenge. -/
theorem owner_table {secret pid : BaseElement}
    (he : Eligible s₀ p record r.view.currentTimestamp (ownerCommitment secret pid))
    (hlong : record.licenseExpiry.toNat ≤ r.view.currentTimestamp.toNat + 2 ^ 32) :
    ∃ proof siblings cols, getMerkleProofImpl s₀ p = some proof ∧ proof.siblings.mapM parseFe = .ok siblings ∧
      buildTrace (r.view.witness record secret pid siblings proof.pathBits) =
        some (cols, r.statement (Air.hash (r.answerInputs secret pid))) ∧
      AssertionsHold (r.statement (Air.hash (r.answerInputs secret pid))) cols ∧
      ∀ i < traceLength, TransitionHolds (r.statement (Air.hash (r.answerInputs secret pid))) cols i := by
  obtain ⟨i, ps, hlen, hproof, hfold⟩ := he.path h₀ hcap
  obtain ⟨w, hw⟩ : ∃ w, w = r.view.witness record secret pid (ps.map Prod.fst) (ps.map Prod.snd) := ⟨_, rfl⟩
  have hs : w.merkleSiblings.length = 25 := by rw [hw]; exact (List.length_map _).trans hlen
  have hb : w.merkleBits.length = 25 := by rw [hw]; exact (List.length_map _).trans hlen
  have hlt : w.currentTimestamp < w.licenseExpiry := by rw [hw]; exact UInt64.lt_iff_toNat_lt.2 he.unexpired
  have hle : w.licenseExpiry.toNat ≤ w.currentTimestamp.toNat + 2 ^ 32 := by rw [hw]; exact hlong
  have hfits := witness_fits w hlt hle
  -- the digests of the last Merkle job and the nullifier job are the public root and nullifier
  have hdigest : (witnessData w).digest 26 = r.transition.pre.currentRoot := by
    rw [digest_root w hs hb, ← hroot, ← hfold, hw]
    simp only [ChallengeView.witness, zip_path, r.registry h]
    rfl
  have hnullifier : (witnessData w).digest 27 = Air.hash (r.answerInputs secret pid) := by
    rw [digest_nullifier, hw]
    simp only [ChallengeView.witness, Request.answerInputs, r.purpose_eq h]
  have hstatement : (witnessData w).publicInputs (BaseElement.new w.currentTimestamp.toNat) =
      r.statement (Air.hash (r.answerInputs secret pid)) := by
    rw [witness_publicInputs, hdigest, hnullifier, hw, r.statement_eq h]
    simp only [ChallengeView.witness, r.registry h, r.purpose_eq h]
    rfl
  have hbuild := buildTrace_eq w hs hb hlt
  have hassertions := JobData.assertions_of_fits hfits
  have htransitions : ∀ i < traceLength, TransitionHolds
      ((witnessData w).publicInputs (BaseElement.new w.currentTimestamp.toNat))
      ((witnessData w).table (rangeBits w) 32) i :=
    fun i hi => JobData.transition_of_fits hfits hi fun _ => rfl
  rw [hstatement] at hbuild hassertions htransitions
  refine ⟨_, ps.map Prod.fst, (witnessData w).table (rangeBits w) 32, hproof, mapM_parseFe_path ps, ?_, hassertions,
    htransitions⟩
  rw [← hw]
  exact hbuild

variable (hclock : Clock tr) (hissued : issuedCount tr < 2 ^ 64)

include hclock hissued

/-- The owner of an eligible property, from the Merkle proof served in any state with the root of the
challenge: the builder returns a table for the statement of the challenge, which satisfies the circuit
and its exempted last transition, and a proof of that statement is accepted while the challenge is open. -/
theorem owner_accepted {secret pid : BaseElement}
    (he : Eligible s₀ p record r.view.currentTimestamp (ownerCommitment secret pid))
    (hlong : record.licenseExpiry.toNat ≤ r.view.currentTimestamp.toNat + 2 ^ 32) :
    ∃ proof siblings cols, getMerkleProofImpl s₀ p = some proof ∧ proof.siblings.mapM parseFe = .ok siblings ∧
      buildTrace (r.view.witness record secret pid siblings proof.pathBits) =
        some (cols, r.statement (Air.hash (r.answerInputs secret pid))) ∧
      AssertionsHold (r.statement (Air.hash (r.answerInputs secret pid))) cols ∧
      (∀ i < traceLength, TransitionHolds (r.statement (Air.hash (r.answerInputs secret pid))) cols i) ∧
      ∀ now, StillOpen r now (Air.hash (r.answerInputs secret pid)) → ∀ w proofBytes,
        w proofBytes (r.statement (Air.hash (r.answerInputs secret pid))) = .accepted →
        (verify w s r.caller now.ns r.view.challengeId proofBytes
          (r.view.submission (Air.hash (r.answerInputs secret pid)))).1 =
            .ok ⟨feToString (Air.hash (r.answerInputs secret pid))⟩ := by
  obtain ⟨proof, siblings, cols, hproof, hsiblings, hbuild, hassertions, htransitions⟩ :=
    owner_table h h₀ hcap hroot he hlong
  exact ⟨proof, siblings, cols, hproof, hsiblings, hbuild, hassertions, htransitions,
    fun now ho w proofBytes haccepted => ho.accepted h hclock hissued haccepted⟩

/-- Anybody, for an eligible property with any commitment and for any pair: some table satisfies the circuit
for the statement of the challenge with the nullifier of that pair, and a proof of it is accepted. -/
theorem impostor_accepted {c : BaseElement} (he : Eligible s₀ p record r.view.currentTimestamp c)
    (hlong : record.licenseExpiry.toNat ≤ r.view.currentTimestamp.toNat + 2 ^ 32) (secret pid : BaseElement) :
    (∃ t, Satisfies (r.statement (Air.hash (r.answerInputs secret pid))) t) ∧
      ∀ now, StillOpen r now (Air.hash (r.answerInputs secret pid)) → ∀ w proofBytes,
        w proofBytes (r.statement (Air.hash (r.answerInputs secret pid))) = .accepted →
        (verify w s r.caller now.ns r.view.challengeId proofBytes
          (r.view.submission (Air.hash (r.answerInputs secret pid)))).1 =
            .ok ⟨feToString (Air.hash (r.answerInputs secret pid))⟩ := by
  obtain ⟨i, ps, hlen, -, hfold⟩ := he.path h₀ hcap
  -- the first job ends in the commitment of the record, from whatever lanes lead to it
  obtain ⟨first, hfirst⟩ := exists_lanes c
  have hlt := he.unexpired
  have hshows : Shows (r.statement (Air.hash (r.answerInputs secret pid))) (runRounds 7 first 0) secret pid ps
      (record.licenseExpiry.toNat - r.view.currentTimestamp.toNat - 1) := by
    rw [r.statement_eq h, hfirst]
    refine ⟨hlen, by omega, ?_, rfl⟩
    rw [← he.expiry, hfold, hroot]
  exact ⟨⟨_, hshows.satisfies⟩, fun now ho w proofBytes haccepted => ho.accepted h hclock hissued haccepted⟩

end

/-! ## The registry with one property -/

theorem plainRecord_eligible : Eligible (enrolled 1) 0 (plainRecord 0) 0 (ownerCommitment (fe 42) (fe 5)) where
  registered := by
    rw [enrolled, submit_records]
    exact (lookup_insert ..).trans (if_pos rfl)
  unencumbered := rfl
  licensed := rfl
  unexpired := by
    show (0 : UInt64).toNat < (100 : UInt64).toNat
    decide
  ownerCommitment := parseFe_feToString plainCommitment

theorem enrolled_capacity : (enrolled 1).leafIndexByProperty.keys.card ≤ 2 ^ treeDepth := by
  rw [(enrolled_index 1 (by norm_num)).2.1]
  norm_num

/-- The owner's request, not answered yet. -/
def enrolledRequest : Request (enrolledTrace ++ [requestTransition (enrolled 1)]) where
  index := enrolledTrace.length
  transition := requestTransition (enrolled 1)
  occurs := List.getElem?_concat_length
  caller := owner
  now := timeZero
  purpose := 1
  view := viewOf (enrolled 1).nextChallengeId (issued (enrolled 1) owner 0 1)
  requested := ⟨_, rfl⟩

theorem enrolledRequest_run :
    CanisterRun (enrolledTrace ++ [requestTransition (enrolled 1)]) (request (enrolled 1) owner 0 1) :=
  enrolledTrace_run.snoc (sample_request enrolled_singleTree.quiet)

theorem enrolledRequest_time : ∀ τ ∈ enrolledTrace ++ [requestTransition (enrolled 1)], τ.label.time = 0 :=
  List.forall_mem_append.2 ⟨enrolledTrace_time, List.forall_mem_singleton.2 rfl⟩

theorem enrolledRequest_open (v : BaseElement) : StillOpen enrolledRequest timeZero v := by
  refine .of_uncalled (fun τ hτ => (enrolledRequest_time τ hτ).le) ?_
    fun τ hτ w caller t id proofBytes publicInputs reply hlabel => ?_
  · show (0 : Int) ≤ i64 (0 + challengeTtlNs)
    decide
  · simp only [enrolledTrace, List.cons_append, List.nil_append, List.mem_cons, List.not_mem_nil, or_false] at hτ
    rcases hτ with h | h | h <;> rw [h] at hlabel <;> cases hlabel

theorem owner_accepted_sample : ∃ v proof siblings cols, getMerkleProofImpl (enrolled 1) 0 = some proof ∧
    proof.siblings.mapM parseFe = .ok siblings ∧
    buildTrace (enrolledRequest.view.witness (plainRecord 0) (fe 42) (fe 5) siblings proof.pathBits) =
      some (cols, enrolledRequest.statement v) ∧
    (verify (accepting (enrolledRequest.statement v)) (request (enrolled 1) owner 0 1) owner timeZero.ns
      enrolledRequest.view.challengeId [] (enrolledRequest.view.submission v)).1 = .ok ⟨feToString v⟩ := by
  obtain ⟨proof, siblings, cols, hproof, hsiblings, hbuild, -, -, haccepted⟩ := owner_accepted enrolledRequest_run
    enrolledTrace_run enrolled_capacity (r := enrolledRequest) rfl (.of_time enrolledRequest_time) (by decide)
    plainRecord_eligible (by decide)
  exact ⟨_, proof, siblings, cols, hproof, hsiblings, hbuild,
    haccepted timeZero (enrolledRequest_open _) (accepting _) [] (if_pos rfl)⟩

/-- The owner's secret is 42; another is as good. -/
theorem impostor_accepted_sample : ∃ v, (∃ t, Satisfies (enrolledRequest.statement v) t) ∧
    v = Air.hash (enrolledRequest.answerInputs (fe 43) (fe 6)) ∧
    (verify (accepting (enrolledRequest.statement v)) (request (enrolled 1) owner 0 1) owner timeZero.ns
      enrolledRequest.view.challengeId [] (enrolledRequest.view.submission v)).1 = .ok ⟨feToString v⟩ := by
  obtain ⟨htable, haccepted⟩ := impostor_accepted enrolledRequest_run enrolledTrace_run enrolled_capacity
    (r := enrolledRequest) rfl (.of_time enrolledRequest_time) (by decide) plainRecord_eligible (by decide) (fe 43) (fe 6)
  exact ⟨_, htable, rfl, haccepted timeZero (enrolledRequest_open _) (accepting _) [] (if_pos rfl)⟩

/-! ## The path of a proof -/

/-- A table for the root of a registry of at most `2^25` properties, with a leaf that is not zero, walks the
very path that `get_merkle_proof` serves for one of them, from the leaf of its record, where the hash
does not collide on the inputs of the table and of the registry. -/
theorem path_is_served {tr : Trace} {s : State} (h : CanisterRun tr s)
    (hcap : s.leafIndexByProperty.keys.card ≤ 2 ^ treeDepth) {pubInputs : PublicInputs} {t : TraceTable}
    (ht : Satisfies pubInputs t) (hroot : pubInputs.merkleRoot = s.currentRoot)
    (hinj : (involvedInputs s t).InjOn Air.hash) (hne : t.row 15 s0 ≠ 0) :
    ∃ p r proof siblings, s.records.lookup p = some r ∧ leafHash r = .ok (t.row 15 s0) ∧
      getMerkleProofImpl s p = some proof ∧ proof.siblings.mapM parseFe = .ok siblings ∧
      (List.range treeDepth).map t.merkleStep = siblings.zip proof.pathBits := by
  have hinv := treeInv_reachable h
  obtain ⟨leaf, hl, hfull⟩ := hinv.nodes
  have hlt : ∀ p i, s.leafIndexByProperty.lookup p = some i → i < 2 ^ treeDepth := fun p i hp =>
    lt_of_lt_of_le (hinv.index_lt p i hp) hcap
  have htree : treeInputs leaf ⊆ involvedInputs s t :=
    (treeInputs_subset hfull).trans (Set.subset_union_right.trans Set.subset_union_right)
  obtain ⟨i, -, hi, hpath⟩ := path_of_tree ht hinj Set.subset_union_left htree
    (by rw [hroot, hinv.root hlt, hfull treeDepth le_rfl])
  -- a nonzero leaf is assigned
  obtain ⟨p, hp⟩ : ∃ p, s.leafIndexByProperty.lookup p = some i := by
    by_contra hfree
    exact hne (hi.trans (hl.free i fun p hp => hfree ⟨p, hp⟩))
  obtain ⟨r, hr⟩ := (hinv.registered p).2 ⟨i, hp⟩
  have hstored : path (fullNode nodeHash leaf) treeDepth 0 i = path (nodeAt s) treeDepth 0 i :=
    path_congr treeDepth 0 i fun k hk => (hfull (0 + k) (by omega) _).symm
  refine ⟨p, r, _, (path (nodeAt s) treeDepth 0 i).map Prod.fst, hr, ?_, getMerkleProofImpl_eq hp, ?_, ?_⟩
  · rw [hi]
    exact hl.assigned p i r hp hr
  · exact mapM_parseFe_path _
  · rw [zip_path, ← hstored]
    exact hpath

/-- The honest table walks the path served for property 0. -/
theorem path_is_served_enrolled : ∃ p r proof siblings, (enrolled 1).records.lookup p = some r ∧
    leafHash r = .ok ((singleTable honestFirst 100).row 15 s0) ∧ getMerkleProofImpl (enrolled 1) p = some proof ∧
    proof.siblings.mapM parseFe = .ok siblings ∧
    (List.range treeDepth).map (singleTable honestFirst 100).merkleStep = siblings.zip proof.pathBits := by
  have hle : (100 : UInt64).toNat ≤ 2 ^ 32 := by decide
  refine path_is_served enrolledTrace_run enrolled_capacity
    (single_statement enrolled_singleTree (by decide) hle honest_first) rfl
    (single_injOn enrolled_singleTree (by decide) hle honest_first honest_injOn_values) ?_
  rw [single_digest (by decide) hle honest_first]
  exact honest_leaf_ne_zero

end Yaqeen.Canister
