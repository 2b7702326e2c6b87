/-
Acceptance read off the history of a run: the spent nullifiers are those of the accepted proofs, one for
each; a proof is accepted exactly when the trace so far holds an unanswered request of the caller that it
answers in time with a fresh nullifier; and the nullifier of an owner's answer is spent by that answer
only.
-/
import Yaqeen.Canister.Answerable
import Yaqeen.Canister.RateLimit
import Yaqeen.Canister.RegistryFacts
import Yaqeen.Canister.Codec

namespace Yaqeen.Canister

open Air FinMap Runs

/-! ## The ledger of nullifiers -/

/-- A `verify` call that returned `Ok`. -/
def Event.accepts : Event → Bool
  | .call _ _ _ (.verify _ _ _) (.verified (.ok _)) => true
  | _ => false

theorem Verified.accepts {e : Event} {w : Winterfell} {caller : Principal} {now : Time} {id : UInt64}
    {proofBytes : List UInt8} {publicInputs : VerifyPublicInputs}
    (h : Verified e w caller now id proofBytes publicInputs) : e.accepts = true := by
  obtain ⟨ok, rfl⟩ := h
  rfl

theorem verified_of_accepts {e : Event} (h : e.accepts = true) :
    ∃ w caller now id proofBytes publicInputs, Verified e w caller now id proofBytes publicInputs := by
  unfold Event.accepts at h
  split at h
  · exact ⟨_, _, _, _, _, _, _, rfl⟩
  · cases h

/-- A step spends the nullifier of the proof it accepts, or leaves the ledger. -/
theorem nullifier_step {s s' : State} {e : Event} (hk : Keyed s) (hst : Step s e s') :
    (∃ w caller now id proofBytes publicInputs v, Verified e w caller now id proofBytes publicInputs ∧
      parseFe publicInputs.nullifier = .ok v ∧ (s.nullifiers.lookup (feToString v)).getD false = false ∧
      s'.nullifiers = s.nullifiers.insert (feToString v) true) ∨
    (e.accepts = false ∧ s'.nullifiers = s.nullifiers) := by
  by_cases ha : e.accepts = true
  · obtain ⟨w, caller, now, id, proofBytes, publicInputs, hv⟩ := verified_of_accepts ha
    obtain ⟨c, v, hp, -, rfl⟩ := verified_step hk hst hv
    exact .inl ⟨w, caller, now, id, proofBytes, publicInputs, v, hv, hp.nullifier, hp.unspent, rfl⟩
  · refine .inr ⟨Bool.not_eq_true _ ▸ ha, ?_⟩
    cases step_change hk hst with
    | verified => exact absurd rfl ha
    | heartbeat => exact heartbeatImpl_nullifiers s _
    | submitted => exact submit_nullifiers s _ _
    | _ => rfl

/-- An accepted proof of the first transitions, in a longer trace. -/
def Acceptance.snoc {tr : Trace} (a : Acceptance tr) (τ : Transition State Event) : Acceptance (tr ++ [τ]) :=
  { a with occurs := List.getElem?_append_left (List.getElem?_eq_some_iff.1 a.occurs).1 ▸ a.occurs }

/-- A value is spent exactly when some accepted proof carried it. -/
theorem spent_iff {tr : Trace} {s : State} (h : CanisterRun tr s) (v : BaseElement) :
    s.nullifiers.lookup (feToString v) = some true ↔ ∃ a : Acceptance tr, parseFe a.publicInputs.nullifier = .ok v := by
  constructor
  · refine h.invariant_history (P := fun tr s => s.nullifiers.lookup (feToString v) = some true →
      ∃ a : Acceptance tr, parseFe a.publicInputs.nullifier = .ok v) (fun hv => by cases hv) ?_
    intro tr s e s' hr ih hst hv
    obtain ⟨w, caller, now, id, proofBytes, publicInputs, v', hver, hparse, -, hins⟩ | ⟨-, hsame⟩ :=
      nullifier_step (treeInv_reachable hr).keyed hst
    · rw [hins, lookup_insert] at hv
      split at hv
      · rename_i heq
        rw [feToString_inj heq]
        exact ⟨⟨tr.length, _, List.getElem?_concat_length, w, caller, now, id, proofBytes, publicInputs, hver⟩, hparse⟩
      · obtain ⟨a, ha⟩ := ih hv
        exact ⟨a.snoc _, ha⟩
    · obtain ⟨a, ha⟩ := ih (hsame ▸ hv)
      exact ⟨a.snoc _, ha⟩
  · rintro ⟨a, ha⟩
    obtain ⟨v', hparse, -, hspent⟩ := a.spends h
    rw [hparse] at ha
    cases ha
    exact spent_run (h.upto a.occurs) (h.after a.occurs) hspent

/-- How many proofs a trace accepts. -/
def acceptedCount (tr : Trace) : ℕ := tr.countP fun τ => τ.label.accepts

theorem card_spent {tr : Trace} {s : State} (h : CanisterRun tr s) : s.nullifiers.keys.card = acceptedCount tr := by
  refine h.invariant_history (P := fun tr s => s.nullifiers.keys.card = acceptedCount tr) rfl ?_
  intro tr s e s' hr ih hst
  have hcount : acceptedCount (tr ++ [⟨s, e, s'⟩]) = acceptedCount tr + if e.accepts then 1 else 0 := by
    unfold acceptedCount
    rw [List.countP_append, List.countP_singleton]
  rw [hcount]
  obtain ⟨w, caller, now, id, proofBytes, publicInputs, v, hver, -, hfresh, hins⟩ | ⟨hno, hsame⟩ :=
    nullifier_step (treeInv_reachable hr).keyed hst
  · have hnone : s.nullifiers.lookup (feToString v) = none := by
      cases hl : s.nullifiers.lookup (feToString v) with
      | none => rfl
      | some b =>
        obtain ⟨rfl, -⟩ := canonicalKeys_reachable hr _ b hl
        rw [hl] at hfresh
        cases hfresh
    rw [hins, card_keys_insert_of_none _ hnone, ih, hver.accepts, if_pos rfl]
  · rw [hsame, ih, hno, if_neg Bool.false_ne_true, Nat.add_zero]

/-- In every run the spent map is the ledger of the accepted proofs: its keys are the canonical texts of
their nullifiers, and it has as many as there are accepted proofs. -/
theorem nullifier_ledger {tr : Trace} {s : State} (h : CanisterRun tr s) :
    (∀ k b, s.nullifiers.lookup k = some b ↔
      b = true ∧ ∃ a : Acceptance tr, canonicalNullifier a.publicInputs.nullifier = .ok k) ∧
    s.nullifiers.keys.card = acceptedCount tr := by
  refine ⟨fun k b => ⟨fun hk => ?_, ?_⟩, card_spent h⟩
  · obtain ⟨rfl, v, rfl⟩ := canonicalKeys_reachable h k b hk
    obtain ⟨a, ha⟩ := (spent_iff h v).1 hk
    exact ⟨rfl, a, canonicalNullifier_ok.2 ⟨v, ha, rfl⟩⟩
  · rintro ⟨rfl, a, ha⟩
    obtain ⟨v, hv, rfl⟩ := canonicalNullifier_ok.1 ha
    exact (spent_iff h v).2 ⟨a, hv⟩

theorem nullifier_ledger_sample :
    (verifyTransition (accepting (sampleStatement freshState 7)) freshState 7).post.nullifiers.keys.card =
      acceptedCount (sampleTrace freshState 7) :=
  (nullifier_ledger (sample_run quiet_fresh)).2

/-! ## When verify accepts -/

/-- A submission of `caller` at `now` that carries the id and the values a request returned to `caller`,
within its lifetime, for a challenge no accepted proof of the trace has answered and with a nullifier that
none has carried. -/
structure AnswersRequest {tr : Trace} (r : Request tr) (caller : Principal) (now : Time) (id : UInt64)
    (publicInputs : VerifyPublicInputs) (v : BaseElement) : Prop where
  challengeId : r.view.challengeId = id
  caller : r.caller = caller
  inTime : now.ns ≤ r.view.expiresAt
  unanswered : ∀ a : Acceptance tr, a.challengeId ≠ id
  registryId : publicInputs.registryId = r.view.registryId
  merkleRoot : parseFe publicInputs.merkleRoot = parseFe r.view.merkleRoot
  purpose : publicInputs.purpose = r.view.purpose
  requestNonce : publicInputs.requestNonce = r.view.requestNonce
  currentTimestamp : publicInputs.currentTimestamp = r.view.currentTimestamp
  nullifier : parseFe publicInputs.nullifier = .ok v
  unspent : ∀ a : Acceptance tr, parseFe a.publicInputs.nullifier ≠ .ok v

section

variable {tr : Trace} {s : State} {caller : Principal} {now : Time} {id : UInt64} {publicInputs : VerifyPublicInputs}
  {v : BaseElement}

/-- What the checks read from the state is what the history of the run says. -/
theorem answersRequest_of_passes (h : CanisterRun tr s) {c : Challenge}
    (hp : Passes s caller now.ns id publicInputs c v)
    (hun : ∀ a : Acceptance tr, a.challengeId ≠ id) : ∃ r : Request tr, AnswersRequest r caller now id publicInputs v := by
  obtain ⟨r, hid, hc⟩ := issuedBefore_run h id c hp.stored
  have hview : r.view = viewOf r.transition.pre.nextChallengeId c := by
    rw [r.view_eq h, hc]
    rfl
  refine ⟨r, hid, ?_, ?_, hun, ?_, ?_, ?_, ?_, ?_, hp.nullifier, fun a ha => ?_⟩
  · rw [hp.requester, hc]
    rfl
  · rw [hview]
    exact hp.inTime
  · rw [hview, hp.registryId]
    rfl
  · rw [hview, hp.merkleRoot]
    exact (parseFe_feToString _).symm
  · rw [hview, hp.purpose]
    rfl
  · rw [hview, hp.requestNonce]
    rfl
  · rw [hview, hp.currentTimestamp]
    rfl
  · have hspent := (spent_iff h v).2 ⟨a, ha⟩
    have hunspent := hp.unspent
    rw [hspent] at hunspent
    cases hunspent

/-- Until the challenge of a request expires or is answered, the state stores it as it was issued. -/
theorem Request.kept (h : CanisterRun tr s) (hissued : issuedCount tr < 2 ^ 64) (r : Request tr)
    (htime : ∀ τ ∈ tr, τ.label.time ≤ r.view.expiresAt)
    (hun : ∀ a : Acceptance tr, a.challengeId ≠ r.view.challengeId) :
    s.challenges.lookup r.view.challengeId = some r.challenge := by
  obtain ⟨hbefore, hst⟩ := h.before r.occurs
  obtain ⟨hview, hpost⟩ := requested_step (treeInv_reachable hbefore).keyed hst r.requested
  have hstored : r.transition.post.challenges.lookup r.view.challengeId = some r.challenge := by
    rw [hpost, hview]
    show (r.transition.pre.challenges.insert r.transition.pre.nextChallengeId r.challenge).lookup
      r.transition.pre.nextChallengeId = some r.challenge
    rw [lookup_insert, if_pos rfl]
  have hsplit := List.take_append_drop (r.index + 1) tr
  have hexp : r.view.expiresAt = r.challenge.expiresAt := by
    rw [r.view_eq h]
    rfl
  refine kept_run (h.upto r.occurs) (h.after r.occurs) (by rw [hsplit]; exact hissued) hstored (fun τ hτ => ?_)
    fun τ hτ w now proofBytes publicInputs hver => ?_
  · rw [← hexp]
    exact htime τ (List.mem_of_mem_drop hτ)
  · obtain ⟨i, hi⟩ := List.getElem?_of_mem (List.mem_of_mem_drop hτ)
    exact hun ⟨i, τ, hi, w, _, now, _, proofBytes, publicInputs, hver⟩ rfl

theorem AnswersRequest.passes (h : CanisterRun tr s) (hissued : issuedCount tr < 2 ^ 64)
    (hnow : ∀ τ ∈ tr, τ.label.time ≤ now.ns) {r : Request tr} (hr : AnswersRequest r caller now id publicInputs v) :
    Passes s caller now.ns id publicInputs r.challenge v := by
  obtain ⟨rfl, rfl, htime, hun, hregistry, hroot, hpurpose, hnonce, hts, hnull, hunspent⟩ := hr
  have hkept := r.kept h hissued (fun τ hτ => (hnow τ hτ).trans htime) hun
  rw [r.view_eq h] at htime hregistry hroot hpurpose hnonce hts
  refine ⟨hkept, rfl, rfl, htime, hregistry, hroot.trans (parseFe_feToString _), hpurpose, hnonce, hts, hnull, ?_⟩
  cases hl : s.nullifiers.lookup (feToString v) with
  | none => rfl
  | some b =>
    obtain ⟨rfl, -⟩ := canonicalKeys_reachable h _ b hl
    obtain ⟨a, ha⟩ := (spent_iff h v).1 hl
    exact absurd ha (hunspent a)

/-- A step that accepts a proof answers a challenge that no earlier accepted proof answered. -/
theorem Acceptance.challengeId_ne_step (h : CanisterRun tr s) (hissued : issuedCount tr < 2 ^ 64) {e : Event}
    {s' : State} (hst : Step s e s') {w : Winterfell} {proofBytes : List UInt8}
    (hver : Verified e w caller now id proofBytes publicInputs) (a : Acceptance tr) : a.challengeId ≠ id := by
  have hlen : a.index < tr.length := (List.getElem?_eq_some_iff.1 a.occurs).1
  have hissued' : issuedCount (tr ++ [⟨s, e, s'⟩]) < 2 ^ 64 := by
    obtain ⟨ok, rfl⟩ := hver
    rw [issuedCount_append]
    exact hissued
  let last : Acceptance (tr ++ [⟨s, e, s'⟩]) :=
    ⟨tr.length, _, List.getElem?_concat_length, w, caller, now, id, proofBytes, publicInputs, hver⟩
  have hbefore : (a.snoc ⟨s, e, s'⟩).index < last.index := hlen
  exact Acceptance.challengeId_ne (h.snoc hst) hissued' hbefore

/-- In every run, `verify` returns `Ok` exactly when the caller is not anonymous and has passed its throttle
no less than the minimal interval ago, the submission answers one of its own requests in time, the first
to do so and the first with its nullifier, and the proof is accepted for the submitted inputs. -/
theorem verify_accepted_iff (h : CanisterRun tr s) (hclock : Clock tr) (hcalls : requestCalls tr < 2 ^ 64)
    (hnow : ∀ τ ∈ tr, τ.label.time ≤ now.ns) (w : Winterfell) (proofBytes : List UInt8) :
    (∃ ok, (verify w s caller now.ns id proofBytes publicInputs).1 = .ok ok) ↔
      caller ≠ Principal.anonymous ∧ ¬ Method.verify.RecentlyPassed tr caller now ∧
      (∃ (r : Request tr) (v : BaseElement), AnswersRequest r caller now id publicInputs v) ∧
      ∃ pubInputs, airPubInputs publicInputs = .ok pubInputs ∧ w proofBytes pubInputs = .accepted := by
  have hissued := (issuedCount_le tr).trans_lt hcalls
  have hrecent := recent_iff .verify h hclock (p := caller) hnow
  constructor
  · rintro ⟨ok, hok⟩
    have ha : caller ≠ Principal.anonymous := by
      intro ha
      rw [verify_throttled (checkAndUpdateThrottle_anonymous ha)] at hok
      cases hok
    have hr : ¬ Recent s.lastVerifyCallAt caller now.ns := by
      intro hr
      rw [verify_throttled (checkAndUpdateThrottle_recent ha hr)] at hok
      cases hok
    obtain ⟨e, -, heq⟩ | ⟨c, v, hp, hw, -⟩ := verify_cases w id proofBytes publicInputs ha hr
    · rw [heq] at hok
      cases hok
    · have hst := Step.call (s := s) w caller now (.verify id proofBytes publicInputs)
      have hun := Acceptance.challengeId_ne_step h hissued hst ⟨ok, congrArg _ (congrArg Reply.verified hok)⟩
      obtain ⟨r, hanswers⟩ := answersRequest_of_passes h hp hun
      exact ⟨ha, fun hlate => hr (hrecent.2 hlate), ⟨r, v, hanswers⟩, _, airPubInputs_of_passes hp, hw⟩
  · rintro ⟨ha, hlate, ⟨r, v, hanswers⟩, pubInputs, hpub, hw⟩
    have hp := hanswers.passes h hissued hnow
    rw [airPubInputs_of_passes hp] at hpub
    cases hpub
    exact ⟨_, congrArg Prod.fst (verify_accepts ha (fun hr => hlate (hrecent.1 hr)) hp hw)⟩

end

/-- The owner's answer of the sample exchange. -/
theorem verify_accepted_iff_sample :
    ∃ ok, (verify (accepting (sampleStatement freshState 7)) (request freshState owner 0 1) owner timeZero.ns 0 []
      (sampleInputs freshState 7)).1 = .ok ok := by
  have hp := sample_passes quiet_fresh 7
  have hnone : ∀ a : Acceptance [requestTransition freshState], False := by
    intro a
    obtain ⟨ok, hver⟩ := a.verified
    rw [List.mem_singleton.1 (List.mem_of_getElem? a.occurs)] at hver
    injection hver with _ _ _ hcall
    cases hcall
  refine (verify_accepted_iff requested_run (List.pairwise_singleton _ _) (by decide) (fun τ hτ => ?_) _ []).2
    ⟨by decide, ?_, ⟨⟨0, requestTransition freshState, rfl, owner, timeZero, 1, _, ⟨_, rfl⟩⟩, 7, ?_⟩, _,
      airPubInputs_of_passes hp, if_pos rfl⟩
  · rw [List.mem_singleton.1 hτ]
    exact le_rfl
  · rintro ⟨τ, hτ, t, ⟨w, id, proofBytes, publicInputs, r, hlabel, -⟩, -⟩
    rw [List.mem_singleton.1 hτ] at hlabel
    cases hlabel
  · exact ⟨rfl, rfl, hp.inTime, fun a => (hnone a).elim, rfl, rfl, rfl, rfl, rfl, hp.nullifier, fun a => (hnone a).elim⟩

/-! ## The nullifier of an answer is reserved -/

/-- A position of a trace holds one request. -/
theorem Request.eq_of_index {tr : Trace} {r r' : Request tr} (hindex : r.index = r'.index) : r = r' := by
  have htransition := Request.transition_of_index hindex
  obtain ⟨i, τ, _, caller, now, purpose, view, w, hreq⟩ := r
  obtain ⟨i', τ', _, caller', now', purpose', view', w', hreq'⟩ := r'
  cases hindex
  cases htransition
  rw [hreq] at hreq'
  cases hreq'
  rfl

/-- What the nullifier of an answer to a request hashes. -/
def Request.answerInputs {tr : Trace} (r : Request tr) (secret pid : BaseElement) : List BaseElement :=
  [BaseElement.new domainNullifier, secret, pid, fe r.purpose, fe r.view.requestNonce]

/-- What the nullifier job of the table behind an accepted proof hashes. -/
def shownInputs (t : TraceTable) (pubInputs : PublicInputs) : List BaseElement :=
  [BaseElement.new domainNullifier, t.row 0 heldSecret, t.row 0 heldPid, pubInputs.purpose, pubInputs.requestNonce]

theorem hash_shownInputs {pubInputs : PublicInputs} {t : TraceTable} (h : Satisfies pubInputs t) :
    Air.hash (shownInputs t pubInputs) = pubInputs.nullifier :=
  (nullifier_digest h).symm

/-- The nonce of a challenge is its id. -/
theorem nextNonce_run {tr : Trace} {s : State} (h : CanisterRun tr s) : s.nextNonce = s.nextChallengeId := by
  refine h.invariant_history (P := fun _ s => s.nextNonce = s.nextChallengeId) rfl fun tr s e s' hr ih hst => ?_
  cases step_change (treeInv_reachable hr).keyed hst with
  | requested => exact congrArg (· + 1) ih
  | submitted =>
    rw [submit_nextNonce, submit_nextChallengeId, ih]
  | heartbeat =>
    obtain ⟨_, _, _, _, _, _, heq, -⟩ := heartbeatImpl_spec s _
    rw [heq]
    exact ih
  | _ => exact ih

theorem Request.nonce_eq {tr : Trace} {s : State} (h : CanisterRun tr s) (r : Request tr) :
    r.view.requestNonce = r.view.challengeId := by
  rw [r.view_eq h]
  exact nextNonce_run (h.before r.occurs).1

/-- With a sound verifier, whose tables and the answer of the owner of a secret give the hash no two nullifier
inputs with one digest, nobody else can spend the nullifier of that answer: once it is spent, the very
challenge was answered by its requester, with a table of that secret for that property. -/
theorem nullifier_reserved {tr : Trace} {s : State} (h : CanisterRun tr s) (hclock : Clock tr)
    (hissued : issuedCount tr < 2 ^ 64) (table : Acceptance tr → TraceTable)
    (hsound : ∀ (a : Acceptance tr) (pubInputs : PublicInputs), airPubInputs a.publicInputs = .ok pubInputs →
      a.winterfell a.proofBytes pubInputs = .accepted → Satisfies pubInputs (table a))
    (r : Request tr) (secret pid : BaseElement)
    (hinj : ({x | x = r.answerInputs secret pid ∨ ∃ (a : Acceptance tr) (pubInputs : PublicInputs),
      airPubInputs a.publicInputs = .ok pubInputs ∧ x = shownInputs (table a) pubInputs}).InjOn Air.hash)
    (hspent : s.nullifiers.lookup (feToString (Air.hash (r.answerInputs secret pid))) = some true) :
    ∃ a : Acceptance tr, Answers a r ∧ (table a).row 0 heldSecret = secret ∧ (table a).row 0 heldPid = pid := by
  obtain ⟨a, ha⟩ := (spent_iff h _).1 hspent
  obtain ⟨r', hr'⟩ := a.answers h hclock
  obtain ⟨v, hnull, hinputs, hw⟩ := hr'.inputs
  have hv : v = Air.hash (r.answerInputs secret pid) := Except.ok.inj (hnull.symm.trans ha)
  have hsat := hsound a _ hinputs hw
  -- the two digests have the same inputs, among them the nonce
  have hshown := hinj (.inr ⟨a, _, hinputs, rfl⟩) (.inl rfl) ((hash_shownInputs hsat).trans hv)
  simp only [shownInputs, Request.answerInputs, requestInputs, List.cons.injEq, and_true, true_and] at hshown
  obtain ⟨hsecret, hpid, -, hnonce⟩ := hshown
  have hid : r'.view.challengeId = r.view.challengeId := by
    rw [← r'.nonce_eq h, ← r.nonce_eq h]
    exact new_u64_inj hnonce
  rw [Request.eq_of_index (Request.index_inj h hissued hid)] at hr'
  exact ⟨a, hr', hsecret, hpid⟩

/-- After a trace without accepted proofs, the answer of an exchange is the only one. -/
theorem Exchange.only_answer {tr : Trace} (hno : ∀ τ ∈ tr, ∀ w caller now id proofBytes publicInputs,
      ¬ Verified τ.label w caller now id proofBytes publicInputs) {x : Exchange} {s : State}
    (a : Acceptance (tr ++ x.trace s)) : a.publicInputs = x.inputs s := by
  obtain ⟨ok, hlabel⟩ := a.verified
  rcases List.mem_append.1 (List.mem_of_getElem? a.occurs) with hτ | hτ
  · exact absurd a.verified (hno _ hτ _ _ _ _ _ _)
  · rcases List.mem_cons.1 hτ with hτ | hτ
    · rw [hτ] at hlabel
      injection hlabel with _ _ _ hcall
      cases hcall
    · rw [List.mem_singleton.1 hτ] at hlabel
      injection hlabel with _ _ _ hcall
      injection hcall with _ _ hinputs
      exact hinputs.symm

theorem sample_publicInputs {tr : Trace} (hno : ∀ τ ∈ tr, ∀ w caller now id proofBytes publicInputs,
      ¬ Verified τ.label w caller now id proofBytes publicInputs) {s : State} {v : BaseElement}
    (a : Acceptance (tr ++ sampleTrace s v)) : a.publicInputs = sampleInputs s v :=
  Exchange.only_answer hno a

/-- The honest answer in the registry with one property. -/
theorem nullifier_reserved_sample : ∃ a : Acceptance (enrolledTrace ++ sampleTrace (enrolled 1) honestNullifier),
    Answers a (sampleRequest enrolledTrace (enrolled 1) honestNullifier) := by
  have hs := enrolled_singleTree
  have ht : Satisfies (sampleStatement (enrolled 1) honestNullifier) (singleTable honestFirst 100) :=
    single_statement hs (by decide) (by decide) honest_first
  have hpub : ∀ (a : Acceptance (enrolledTrace ++ sampleTrace (enrolled 1) honestNullifier)) (pubInputs : PublicInputs),
      airPubInputs a.publicInputs = .ok pubInputs → pubInputs = sampleStatement (enrolled 1) honestNullifier := by
    intro a pubInputs ha
    rw [sample_publicInputs enrolledTrace_unverified a,
      airPubInputs_of_passes (sample_passes hs.quiet honestNullifier)] at ha
    exact (Except.ok.inj ha).symm
  have hshown : shownInputs (singleTable honestFirst 100) (sampleStatement (enrolled 1) honestNullifier) =
      (sampleRequest enrolledTrace (enrolled 1) honestNullifier).answerInputs (fe 42) (fe 5) := rfl
  have hspent : (verifyTransition (accepting (sampleStatement (enrolled 1) honestNullifier)) (enrolled 1)
      honestNullifier).post.nullifiers.lookup (feToString (Air.hash
        ((sampleRequest enrolledTrace (enrolled 1) honestNullifier).answerInputs (fe 42) (fe 5)))) = some true := by
    rw [← hshown, hash_shownInputs ht]
    show ((enrolled 1).nullifiers.insert (feToString honestNullifier) true).lookup (feToString honestNullifier) =
      some true
    rw [lookup_insert, if_pos rfl]
  obtain ⟨a, ha, -⟩ := nullifier_reserved (enrolledTrace_run.append (sample_run (v := honestNullifier) hs.quiet))
    (.of_time (enrolled_sample_time _))
    (Nat.one_lt_two_pow (by norm_num)) (fun _ => singleTable honestFirst 100)
    (fun a pubInputs ha _ => hpub a pubInputs ha ▸ ht) _ (fe 42) (fe 5) (by
      -- the one table behind an accepted proof is the owner's
      apply Set.Subsingleton.injOn
      rintro x (rfl | ⟨a, pubInputs, ha, rfl⟩) y (rfl | ⟨a', pubInputs', ha', rfl⟩)
      · rfl
      · rw [hpub a' pubInputs' ha', hshown]
      · rw [hpub a pubInputs ha, hshown]
      · rw [hpub a pubInputs ha, hpub a' pubInputs' ha']) hspent
  exact ⟨a, ha⟩

end Yaqeen.Canister
