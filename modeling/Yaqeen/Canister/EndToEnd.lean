/-
The protocol from end to end. From every reachable state a rested caller that owns an eligible property has
its proof accepted in two calls, whatever happened before. And revoking works: once no eligible property
has a commitment, no proof that shows it is accepted later than the lifetime of a challenge.
-/
import Yaqeen.Canister.Provability

namespace Yaqeen.Canister

open Air FinMap Runs HashTree Prover

/-! ## Histories of the next step -/

section

variable {tr : Trace} {s : State} {τ : Transition State Event}

/-- Accepted proofs come before a step that accepts none. -/
theorem Acceptance.exists_snoc (hno : ∀ w caller now id proofBytes publicInputs,
      ¬ Verified τ.label w caller now id proofBytes publicInputs) (a : Acceptance (tr ++ [τ])) :
    ∃ a' : Acceptance tr, a'.snoc τ = a := by
  have hlt : a.index < tr.length := by
    by_contra hge
    have hocc := a.occurs
    rw [List.getElem?_append_right (Nat.le_of_not_lt hge)] at hocc
    have hmem := List.mem_of_getElem? hocc
    have hver := a.verified
    rw [List.mem_singleton.1 hmem] at hver
    exact hno _ _ _ _ _ _ hver
  have hocc := a.occurs
  rw [List.getElem?_append_left hlt] at hocc
  exact ⟨{ a with occurs := hocc }, rfl⟩

/-- The id of the next challenge is none that was returned. -/
theorem Request.challengeId_ne_next (h : CanisterRun tr s) (hissued : issuedCount tr < 2 ^ 64) (r : Request tr) :
    r.view.challengeId ≠ s.nextChallengeId := by
  apply id_ne_next h hissued
  have hlt := r.issuedCount_lt (List.getElem?_eq_some_iff.1 r.occurs).1
  rw [List.take_length] at hlt
  rw [r.id_toNat h hissued]
  exact hlt

/-- No accepted proof answers the next challenge. -/
theorem Acceptance.challengeId_ne_next (h : CanisterRun tr s) (hissued : issuedCount tr < 2 ^ 64) (a : Acceptance tr) :
    a.challengeId ≠ s.nextChallengeId := by
  obtain ⟨r, -, -, -, hid, -⟩ := a.inputs h
  rw [hid]
  exact r.challengeId_ne_next h hissued

/-- Nor is its nullifier spent, where the hash does not collide on the nullifier inputs. -/
theorem Acceptance.nullifier_ne_next (h : CanisterRun tr s) (hissued : issuedCount tr < 2 ^ 64)
    {table : Acceptance tr → TraceTable}
    (hsound : ∀ (a : Acceptance tr) (pubInputs : PublicInputs), airPubInputs a.publicInputs = .ok pubInputs →
      a.winterfell a.proofBytes pubInputs = .accepted → Satisfies pubInputs (table a))
    {x : List BaseElement} (hinj : ({y | y = x ∨ ∃ (a : Acceptance tr) (pubInputs : PublicInputs),
      airPubInputs a.publicInputs = .ok pubInputs ∧ y = shownInputs (table a) pubInputs}).InjOn Air.hash)
    (hx : x[4]? = some (fe s.nextNonce)) (a : Acceptance tr) : parseFe a.publicInputs.nullifier ≠ .ok (Air.hash x) := by
  intro hspent
  obtain ⟨r, v, -, -, -, -, hnull, hinputs, hw⟩ := a.inputs h
  rw [hnull] at hspent
  cases hspent
  have hsat := hsound a _ hinputs hw
  -- equal digests have equal inputs, among them the nonce of a challenge
  have hshown := hinj (.inr ⟨a, _, hinputs, rfl⟩) (.inl rfl) (hash_shownInputs hsat)
  rw [← hshown] at hx
  have hnonce := new_u64_inj (Option.some.inj hx)
  rw [r.nonce_eq h, nextNonce_run h] at hnonce
  exact r.challengeId_ne_next h hissued hnonce

end

theorem exists_step_verify {s : State} {w : Winterfell} {caller : Principal} {now : Time} {id : UInt64}
    {proofBytes : List UInt8} {publicInputs : VerifyPublicInputs} {ok : VerifyOk}
    (hok : (verify w s caller now.ns id proofBytes publicInputs).1 = .ok ok) :
    ∃ s', Step s (.call w caller now (.verify id proofBytes publicInputs) (.verified (.ok ok))) s' := by
  have h := Step.call (s := s) w caller now (.verify id proofBytes publicInputs)
  simp only [exec, hok] at h
  exact ⟨_, h⟩

/-! ## An owner can always answer -/

/-- What the owner hashes for the nullifier of the next challenge. -/
def nextAnswer (s : State) (purpose : UInt64) (secret pid : BaseElement) : List BaseElement :=
  [BaseElement.new domainNullifier, secret, pid, fe purpose, fe s.nextNonce]

/-- The transition of an accepted request. -/
def requestStep (w : Winterfell) (s : State) (caller : Principal) (now : Time) (purpose : UInt64) :
    Transition State Event where
  pre := s
  label := .call w caller now (.requestChallenge purpose)
    (.challenge (.ok (viewOf s.nextChallengeId (issued s caller now.ns purpose))))
  post := request s caller now.ns purpose

def nextRequest (tr : Trace) (w : Winterfell) (s : State) (caller : Principal) (now : Time) (purpose : UInt64) :
    Request (tr ++ [requestStep w s caller now purpose]) where
  index := tr.length
  transition := requestStep w s caller now purpose
  occurs := List.getElem?_concat_length
  caller := caller
  now := now
  purpose := purpose
  view := viewOf s.nextChallengeId (issued s caller now.ns purpose)
  requested := ⟨w, rfl⟩

section

variable {tr : Trace} {s : State} (h : CanisterRun tr s) (hissued : issuedCount tr < 2 ^ 64)

include h hissued

/-- Right after a request of a rested caller, and for as long as the challenge lives, the answer is open. -/
theorem nextRequest_open (w : Winterfell) (purpose : UInt64) {caller : Principal} {now later : Time}
    (hnow : ∀ τ ∈ tr, τ.label.time ≤ now.ns)
    (hrested : ¬ Method.verify.RecentlyPassed tr caller now) (hfuture : now.ns + challengeTtlNs < 2 ^ 63)
    (hlater : now.ns ≤ later.ns) (hin : later.ns ≤ now.ns + challengeTtlNs) {v : BaseElement}
    (hunspent : ∀ a : Acceptance tr, parseFe a.publicInputs.nullifier ≠ .ok v) :
    StillOpen (nextRequest tr w s caller now purpose) later v := by
  have hno : ∀ w' caller' now' id proofBytes publicInputs,
      ¬ Verified (requestStep w s caller now purpose).label w' caller' now' id proofBytes publicInputs := by
    rintro _ _ _ _ _ _ ⟨ok, hlabel⟩
    cases hlabel
  constructor
  · intro τ hτ
    rcases List.mem_append.1 hτ with hτ | hτ
    · exact (hnow τ hτ).trans hlater
    · rw [List.mem_singleton.1 hτ]
      exact hlater
  · show later.ns ≤ i64 (now.ns + challengeTtlNs)
    have := now.nonneg
    rw [i64_of_range (by unfold challengeTtlNs; omega) hfuture]
    exact hin
  · rintro ⟨τ, hτ, t, hp, hlt⟩
    rcases List.mem_append.1 hτ with hτ | hτ
    · exact hrested ⟨τ, hτ, t, hp, by omega⟩
    · rw [List.mem_singleton.1 hτ] at hp
      obtain ⟨_, _, _, _, _, hlabel, -⟩ := hp
      cases hlabel
  · intro a
    obtain ⟨a, rfl⟩ := a.exists_snoc hno
    exact a.challengeId_ne_next h hissued
  · intro a
    obtain ⟨a, rfl⟩ := a.exists_snoc hno
    exact hunspent a

end

/-- From every reachable state with at most `2^25` properties, a caller that has passed neither throttle within
the minimal interval and knows the pair behind the commitment of an eligible property gets a challenge, builds
a table for it from what the canister serves, and has its proof accepted at any time of the challenge's
life, where past proofs were sound and the hash does not collide on their nullifier inputs and its own. -/
theorem owner_can_answer {tr : Trace} {s : State} (h : CanisterRun tr s) (hclock : Clock tr)
    (hissued : issuedCount tr + 1 < 2 ^ 64) (hcap : s.leafIndexByProperty.keys.card ≤ 2 ^ treeDepth)
    {caller : Principal} (ha : caller ≠ Principal.anonymous) {now : Time} (hnow : ∀ τ ∈ tr, τ.label.time ≤ now.ns)
    (hrested : ∀ m : Method, ¬ m.RecentlyPassed tr caller now) (hfuture : now.ns + challengeTtlNs < 2 ^ 63)
    {p : UInt64} {record : Record} {secret pid : BaseElement}
    (he : Eligible s p record (UInt64.ofInt (now.ns.tdiv 1000000000)) (ownerCommitment secret pid))
    (hlong : record.licenseExpiry.toNat ≤ (UInt64.ofInt (now.ns.tdiv 1000000000)).toNat + 2 ^ 32) (purpose : UInt64)
    (table : Acceptance tr → TraceTable)
    (hsound : ∀ (a : Acceptance tr) (pubInputs : PublicInputs), airPubInputs a.publicInputs = .ok pubInputs →
      a.winterfell a.proofBytes pubInputs = .accepted → Satisfies pubInputs (table a))
    (hinj : ({x | x = nextAnswer s purpose secret pid ∨ ∃ (a : Acceptance tr) (pubInputs : PublicInputs),
      airPubInputs a.publicInputs = .ok pubInputs ∧ x = shownInputs (table a) pubInputs}).InjOn Air.hash)
    (w : Winterfell)
    (hproves : ∀ cols pubInputs, Satisfies pubInputs cols → ∃ proofBytes, w proofBytes pubInputs = .accepted) :
    ∃ view s₁ proof siblings cols pubInputs proofBytes,
      Step s (.call w caller now (.requestChallenge purpose) (.challenge (.ok view))) s₁ ∧
      getMerkleProofImpl s₁ p = some proof ∧ proof.siblings.mapM parseFe = .ok siblings ∧
      buildTrace (view.witness record secret pid siblings proof.pathBits) = some (cols, pubInputs) ∧
      Satisfies pubInputs cols ∧
      ∀ later : Time, now.ns ≤ later.ns → later.ns ≤ now.ns + challengeTtlNs → ∃ ok s₂,
        Step s₁ (.call w caller later (.verify view.challengeId proofBytes (view.submission pubInputs.nullifier))
          (.verified (.ok ok))) s₂ := by
  have hissued' : issuedCount tr < 2 ^ 64 := by omega
  have hrecent := recent_iff .requestChallenge h hclock (p := caller) hnow
  have hstep := step_request w purpose ha fun hr => hrested .requestChallenge (hrecent.1 hr)
  have hrun : CanisterRun (tr ++ [requestStep w s caller now purpose]) (request s caller now.ns purpose) := h.snoc hstep
  have hclock' : Clock (tr ++ [requestStep w s caller now purpose]) := by
    refine List.pairwise_append.2 ⟨hclock, List.pairwise_singleton _ _, fun τ hτ τ' hτ' => ?_⟩
    rw [List.mem_singleton.1 hτ']
    exact hnow τ hτ
  have hcount : issuedCount (tr ++ [requestStep w s caller now purpose]) < 2 ^ 64 := by
    rw [issuedCount_append]
    exact hissued
  have he' : Eligible (request s caller now.ns purpose) p record
      (nextRequest tr w s caller now purpose).view.currentTimestamp (ownerCommitment secret pid) :=
    ⟨he.registered, he.unencumbered, he.licensed, he.unexpired, he.ownerCommitment⟩
  obtain ⟨proof, siblings, cols, hproof, hsiblings, hbuild, hassertions, htransitions⟩ :=
    owner_table hrun hrun hcap (r := nextRequest tr w s caller now purpose) rfl he' hlong
  have hsat := Satisfies.mk hassertions fun i hi => htransitions i (Nat.lt_of_lt_pred hi)
  obtain ⟨proofBytes, haccepted⟩ := hproves _ _ hsat
  refine ⟨_, _, proof, siblings, cols, _, proofBytes, hstep, hproof, hsiblings, hbuild, hsat, fun later hlater hin => ?_⟩
  have hopen := nextRequest_open h hissued' w purpose hnow (hrested .verify) hfuture hlater hin fun a =>
    a.nullifier_ne_next h hissued' hsound hinj rfl
  exact ⟨_, exists_step_verify (hopen.accepted hrun hclock' hcount haccepted)⟩

theorem owner_can_answer_enrolled : ∃ view s₁ proofBytes publicInputs ok s₂,
    Step (enrolled 1) (.call (fun _ _ => .accepted) owner timeZero (.requestChallenge 1) (.challenge (.ok view))) s₁ ∧
    Step s₁ (.call (fun _ _ => .accepted) owner timeZero (.verify view.challengeId proofBytes publicInputs)
      (.verified (.ok ok))) s₂ := by
  have hnone : ∀ a : Acceptance enrolledTrace, False := fun a =>
    enrolledTrace_unverified _ (List.mem_of_getElem? a.occurs) _ _ _ _ _ _ a.verified
  have hrested : ∀ m : Method, ¬ m.RecentlyPassed enrolledTrace owner timeZero := by
    rintro m ⟨τ, hτ, t, hp, -⟩
    simp only [enrolledTrace, List.mem_cons, List.not_mem_nil, or_false] at hτ
    cases m with
    | requestChallenge =>
      obtain ⟨_, _, _, hlabel⟩ := hp
      rcases hτ with rfl | rfl <;> cases hlabel
    | verify =>
      obtain ⟨_, _, _, _, _, hlabel, -⟩ := hp
      rcases hτ with rfl | rfl <;> cases hlabel
  have hinj : ({x | x = nextAnswer (enrolled 1) 1 (fe 42) (fe 5) ∨ ∃ (a : Acceptance enrolledTrace)
      (pubInputs : PublicInputs), airPubInputs a.publicInputs = .ok pubInputs ∧
        x = shownInputs (fun _ _ => 0) pubInputs}).InjOn Air.hash := by
    apply Set.Subsingleton.injOn
    rintro x (rfl | ⟨a, -⟩) y (rfl | ⟨a', -⟩)
    · rfl
    · exact (hnone a').elim
    · exact (hnone a).elim
    · exact (hnone a).elim
  obtain ⟨view, s₁, proof, siblings, cols, pubInputs, proofBytes, hrequest, -, -, -, -, hverify⟩ :=
    owner_can_answer enrolledTrace_run (.of_time enrolledTrace_time) (by decide) enrolled_capacity (by decide)
      (fun τ hτ => (enrolledTrace_time τ hτ).le) hrested (by decide) plainRecord_eligible (by decide) 1 (fun _ _ _ => 0)
      (fun a => (hnone a).elim) hinj (fun _ _ => .accepted) fun _ _ _ => ⟨[], rfl⟩
  obtain ⟨ok, s₂, hstep⟩ := hverify timeZero le_rfl (by decide)
  exact ⟨view, s₁, proofBytes, _, ok, s₂, hrequest, hstep⟩

/-! ## Revoking takes effect -/

/-- The second in which a transition happens, as a challenge issued by it carries it. -/
def secondOf (τ : Transition State Event) : UInt64 := UInt64.ofInt (τ.label.time.tdiv 1000000000)

/-- If from some time on no state a step starts from holds an eligible property with a commitment, because it
was encumbered, its license withdrawn or lapsed, or its commitment replaced, then no proof accepted later
than the lifetime of a challenge after that time shows this commitment, with a sound verifier and where no
leaf shown is zero and the hash does not collide. -/
theorem revocation_takes_effect {tr : Trace} {s : State} (h : CanisterRun tr s) (hclock : Clock tr)
    (hcap : s.leafIndexByProperty.keys.card ≤ 2 ^ treeDepth) (table : Acceptance tr → TraceTable)
    (hsound : ∀ (a : Acceptance tr) (pubInputs : PublicInputs), airPubInputs a.publicInputs = .ok pubInputs →
      a.winterfell a.proofBytes pubInputs = .accepted → Satisfies pubInputs (table a))
    (hinj : ∀ (a : Acceptance tr) (r : Request tr), Answers a r →
      (involvedInputs r.transition.pre (table a)).InjOn Air.hash)
    (hne : ∀ a : Acceptance tr, (table a).row 15 s0 ≠ 0) (c : BaseElement) (revokedAt : Int)
    (hrevoked : ∀ τ ∈ tr, revokedAt ≤ τ.label.time → ∀ p record, ¬ Eligible τ.pre p record (secondOf τ) c)
    (a : Acceptance tr) (hlate : revokedAt + challengeTtlNs < a.now.ns) : (table a).row 8 (stateCol 2) ≠ c := by
  intro hshown
  obtain ⟨r, hr⟩ := a.answers h hclock
  obtain ⟨v, -, hinputs, hw⟩ := hr.inputs
  obtain ⟨hbefore, hst⟩ := h.before r.occurs
  have hafter := (Run.nil.snoc hst).append (h.after r.occurs)
  have hindex : ∀ p i, r.transition.pre.leafIndexByProperty.lookup p = some i → i < 2 ^ treeDepth := fun p i hp =>
    lt_of_lt_of_le ((treeInv_reachable h).index_lt p i (index_run hbefore hafter hp)) hcap
  have htime : r.transition.label.time = r.now.ns := by
    obtain ⟨w, hlabel⟩ := r.requested
    rw [hlabel]
    rfl
  have hsecond : BaseElement.new (r.now.ns / 1000000000).toNat = fe (secondOf r.transition) := by
    unfold secondOf
    rw [htime, ← timestamp_toNat r.now]
    rfl
  -- the registry of the request still held the property
  obtain ⟨p, record, helig⟩ := eligible_of_satisfies (treeInv_reachable hbefore) hindex (hsound a _ hinputs hw) rfl hsecond
    (hinj a r hr) (hne a)
  rw [hshown] at helig
  have hin := hr.inTime
  exact hrevoked r.transition (List.mem_of_getElem? r.occurs) (by omega) p record helig

/-! ## The former commitment of a replaced record -/

theorem formerRecord_eligible : Eligible formerState 0 formerRecord 0 formerCommitment where
  registered := by
    rw [formerState, submit_records]
    exact (lookup_insert ..).trans (if_pos rfl)
  unencumbered := rfl
  licensed := rfl
  unexpired := by
    show (0 : UInt64).toNat < (100 : UInt64).toNat
    decide
  ownerCommitment := parseFe_feToString formerCommitment

theorem plainCommitment_ne_former : plainCommitment ≠ formerCommitment := by
  have hformer : formerCommitment = BaseElement.new (hashList [2, 43, 5]) := hash_eval [2, 43, 5]
  rw [plainCommitment_eval, hformer]
  intro h
  have hne : hashList [2, 42, 5] % modulus ≠ hashList [2, 43, 5] % modulus := by decide +kernel
  exact hne ((ZMod.natCast_eq_natCast_iff' _ _ _).1 h)

/-- Once the record is replaced, the former commitment is gone. -/
theorem former_not_eligible {s : State} (hs : s.records = replacedState.records) (p : UInt64) (record : Record)
    (now : UInt64) : ¬ Eligible s p record now formerCommitment := by
  intro he
  have hregistered := he.registered
  have hcommitment := he.ownerCommitment
  rw [hs] at hregistered
  rw [replaced_records hregistered] at hcommitment
  exact plainCommitment_ne_former (Except.ok.inj ((parseFe_feToString plainCommitment).symm.trans hcommitment))

/-- The owner of the plain record asks two nanoseconds after the former one was replaced, and answers at the last
moment. -/
def lateExchange : Exchange :=
  ⟨owner, ⟨2, by decide, by decide⟩, ⟨challengeTtlNs + 2, by decide, by decide⟩, honestNullifier⟩

theorem lateExchange_ready : lateExchange.Ready replacedState where
  named := by
    show owner ≠ Principal.anonymous
    decide
  challengeRested := not_recent_of_none replaced_quiet.challengeCalls
  verifyRested := not_recent_of_none replaced_quiet.verifyCalls
  inTime := by
    show challengeTtlNs + 2 ≤ i64 (2 + challengeTtlNs)
    decide
  unspent := by
    rw [replaced_quiet.nullifiers]
    rfl

/-- The challenge is still of second 0. -/
theorem lateExchange_statement : lateExchange.statement replacedState =
    sampleStatement replacedState honestNullifier := by
  have hsecond : (lateExchange.challenge replacedState).currentTimestamp =
      ((ownerExchange honestNullifier).challenge replacedState).currentTimestamp := by
    show UInt64.ofInt ((2 : Int).tdiv 1000000000) = UInt64.ofInt ((0 : Int).tdiv 1000000000)
    decide
  unfold sampleStatement Exchange.statement
  rw [hsecond]
  rfl

theorem lateExchange_clock : Clock (replacedTrace ++ lateExchange.trace replacedState) := by
  have hnonneg : ∀ τ ∈ lateExchange.trace replacedState, (0 : Int) ≤ τ.label.time :=
    List.forall_mem_cons.2 ⟨lateExchange.asked.nonneg, List.forall_mem_singleton.2 lateExchange.answered.nonneg⟩
  refine List.pairwise_append.2 ⟨Clock.of_time replacedTrace_time, List.pairwise_pair.2 ?_, fun τ hτ τ' hτ' => ?_⟩
  · show (2 : Int) ≤ challengeTtlNs + 2
    decide
  · rw [replacedTrace_time τ hτ]
    exact hnonneg τ' hτ'

theorem replacedTrace_unverified : ∀ τ ∈ replacedTrace, ∀ w caller now id proofBytes publicInputs,
    ¬ Verified τ.label w caller now id proofBytes publicInputs := by
  refine List.forall_mem_cons.2 ⟨?_, List.forall_mem_cons.2 ⟨?_, List.forall_mem_singleton.2 ?_⟩⟩
  all_goals
    rintro _ _ _ _ _ _ ⟨ok, h⟩
    cases h

/-- The one request meets the replaced record. -/
theorem lateExchange_request (r : Request (replacedTrace ++ lateExchange.trace replacedState)) :
    r.transition.pre = replacedState := by
  obtain ⟨w, hlabel⟩ := r.requested
  rcases List.mem_append.1 (List.mem_of_getElem? r.occurs) with hτ | hτ
  · simp only [replacedTrace, List.mem_cons, List.not_mem_nil, or_false] at hτ
    rcases hτ with h | h | h <;> rw [h] at hlabel <;> injection hlabel with _ _ _ hcall <;> cases hcall
  · rcases List.mem_cons.1 hτ with h | h
    · rw [h]
      rfl
    · rw [List.mem_singleton.1 h] at hlabel
      injection hlabel with _ _ _ hcall
      cases hcall

/-- The former commitment stood in the registry; a proof accepted later than the lifetime of a challenge after
its replacement does not show it. -/
theorem revocation_takes_effect_replaced : Eligible formerState 0 formerRecord 0 formerCommitment ∧
    ∃ a : Acceptance (replacedTrace ++ lateExchange.trace replacedState), 1 + challengeTtlNs < a.now.ns ∧
      (singleTable honestFirst 100).row 8 (stateCol 2) ≠ formerCommitment := by
  have hs := replaced_singleTree
  have hle : (100 : UInt64).toNat ≤ 2 ^ 32 := by decide
  have ht : Satisfies (lateExchange.statement replacedState) (singleTable honestFirst 100) := by
    rw [lateExchange_statement]
    exact single_statement hs (by decide) hle honest_first
  have hlate : 1 + challengeTtlNs < (lateExchange.toAcceptance replacedState replacedTrace).now.ns := by
    show 1 + challengeTtlNs < challengeTtlNs + 2
    decide
  refine ⟨formerRecord_eligible, _, hlate, revocation_takes_effect (replacedTrace_run.append lateExchange_ready.run)
    lateExchange_clock replaced_capacity (fun _ => singleTable honestFirst 100) (fun a pubInputs ha _ => ?_)
    (fun a r _ => ?_) (fun _ => ?_) formerCommitment 1 (fun τ hτ hlater p record => ?_) _ hlate⟩
  · rw [Exchange.only_answer replacedTrace_unverified a, airPubInputs_of_passes lateExchange_ready.passes] at ha
    cases ha
    exact ht
  · rw [lateExchange_request r]
    exact single_injOn hs (by decide) hle honest_first honest_injOn_values
  · rw [single_digest (by decide) hle honest_first]
    exact honest_leaf_ne_zero
  · rcases List.mem_append.1 hτ with hτ | hτ
    · rw [replacedTrace_time τ hτ] at hlater
      cases hlater
    · refine former_not_eligible ?_ p record _
      rcases List.mem_cons.1 hτ with h | h
      · rw [h]
        rfl
      · rw [List.mem_singleton.1 h]
        rfl

end Yaqeen.Canister
