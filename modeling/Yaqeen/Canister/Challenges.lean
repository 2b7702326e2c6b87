/-
Challenges over whole runs: their ids count the successful requests, every stored challenge is one that
was issued, and an answered challenge stays consumed until it is pruned. So each accepted proof answers
exactly one earlier request of the same caller, for the root and the values of that request, and no
request is answered twice.
-/
import Yaqeen.Canister.Nullifiers

namespace Yaqeen.Canister

open Air FinMap Runs

/-! ## What a step does to the challenges -/

/-- A successful `request_challenge` call. -/
def Event.issues : Event → Bool
  | .call _ _ _ (.requestChallenge _) (.challenge (.ok _)) => true
  | _ => false

theorem Requested.issues {e : Event} {caller : Principal} {now : Time} {purpose : UInt64} {view : ChallengeView}
    (h : Requested e caller now purpose view) : e.issues = true := by
  obtain ⟨w, rfl⟩ := h
  rfl

/-- A step issues a challenge, accepts an answer to one, or does neither; then challenges only leave the
state, and only once expired. -/
inductive ChallengeStep (s : State) (e : Event) (s' : State) : Prop
  | neither : e.issues = false → s'.nextChallengeId = s.nextChallengeId →
      (∀ id, s'.challenges.lookup id = s.challenges.lookup id ∨
        (s'.challenges.lookup id = none ∧ ∃ c, s.challenges.lookup id = some c ∧ c.expiresAt < e.time)) →
      ChallengeStep s e s'
  | issue {caller : Principal} {now : Time} {purpose : UInt64} :
      Requested e caller now purpose (viewOf s.nextChallengeId (issued s caller now.ns purpose)) →
      s' = request s caller now.ns purpose → ChallengeStep s e s'
  | answer {w : Winterfell} {caller : Principal} {now : Time} {id : UInt64} {proofBytes : List UInt8}
      {publicInputs : VerifyPublicInputs} {c : Challenge} {v : BaseElement} :
      Verified e w caller now id proofBytes publicInputs → Passes s caller now.ns id publicInputs c v →
      s' = accept s caller now.ns id c v → ChallengeStep s e s'

theorem issues_of_silent {w : Winterfell} {caller : Principal} {now : Time} {c : Call} {r : Reply}
    (hr : r.isSilent = true) : (Event.call w caller now c r).issues = false := by
  unfold Event.issues
  split
  · rename_i h
    cases h
    cases hr
  · rfl

theorem challenge_step {s s' : State} {e : Event} (hk : Keyed s) (hst : Step s e s') : ChallengeStep s e s' := by
  cases step_change hk hst with
  | silent _ hr => exact .neither (issues_of_silent hr) rfl fun _ => .inl rfl
  | admins admins hc hr =>
    obtain ⟨x, rfl⟩ := hr
    rename_i c
    exact .neither (by cases c <;> rfl) rfl fun _ => .inl rfl
  | submitted =>
    refine .neither rfl (submit_nextChallengeId _ _ _) fun id => .inl ?_
    rw [submit_challenges]
  | requested => exact .issue ⟨_, rfl⟩ rfl
  | throttled => exact .neither rfl rfl fun _ => .inl rfl
  | failed => exact .neither rfl rfl fun _ => .inl rfl
  | verified _ hp => exact .answer ⟨_, rfl⟩ hp rfl
  | heartbeat =>
    rename_i now
    obtain ⟨_, _, _, _, _, _, heq, hlook, -⟩ := heartbeatImpl_spec s now.ns
    refine .neither rfl ?_ fun id => ?_ <;> rw [heq]
    exact hlook id
  | upgraded => exact .neither rfl rfl fun _ => .inl rfl

/-! ## Ids -/

/-- How many challenges a trace issues. -/
def issuedCount (tr : Trace) : ℕ := tr.countP fun τ => τ.label.issues

theorem issuedCount_append (tr tr' : Trace) : issuedCount (tr ++ tr') = issuedCount tr + issuedCount tr' :=
  List.countP_append

theorem issuedCount_le (tr : Trace) : issuedCount tr ≤ requestCalls tr := by
  refine List.countP_mono_left fun τ _ h => ?_
  unfold Event.issues at h
  split at h
  · rename_i hτ
    rw [hτ]
    rfl
  · cases h

/-- A step that issues a challenge advances the next id by one, any other leaves it. -/
theorem nextChallengeId_step {s s' : State} {e : Event} (hk : Keyed s) (hst : Step s e s') :
    s'.nextChallengeId = s.nextChallengeId + UInt64.ofNat (issuedCount [⟨s, e, s'⟩]) := by
  have hcount : issuedCount [⟨s, e, s'⟩] = if e.issues then 1 else 0 := List.countP_singleton
  rw [hcount]
  cases challenge_step hk hst with
  | neither hi hnext =>
    rw [hi, hnext]
    exact (UInt64.add_zero _).symm
  | issue hreq heq =>
    rw [hreq.issues, heq]
    rfl
  | answer hv _ heq =>
    obtain ⟨ok, rfl⟩ := hv
    rw [heq]
    exact (UInt64.add_zero _).symm

/-- The next id counts the challenges issued, modulo `2^64`. -/
theorem nextChallengeId_run {tr : Trace} {s : State} (h : CanisterRun tr s) :
    s.nextChallengeId = UInt64.ofNat (issuedCount tr) := by
  refine h.invariant_history (P := fun tr s => s.nextChallengeId = UInt64.ofNat (issuedCount tr)) rfl
    fun tr s e s' hr ih hst => ?_
  rw [nextChallengeId_step (treeInv_reachable hr).keyed hst, ih, issuedCount_append, UInt64.ofNat_add]

/-- With fewer than `2^64` challenges issued the next id is their number. -/
theorem nextChallengeId_toNat {tr : Trace} {s : State} (h : CanisterRun tr s) (hissued : issuedCount tr < 2 ^ 64) :
    s.nextChallengeId.toNat = issuedCount tr := by
  rw [nextChallengeId_run h, UInt64.toNat_ofNat', Nat.mod_eq_of_lt hissued]

theorem issuedCount_take_le (tr : Trace) (j : ℕ) : issuedCount (tr.take j) ≤ issuedCount tr :=
  (List.take_sublist j tr).countP_le

/-- The id of a request is the number of challenges issued before it. -/
theorem Request.id_toNat {tr : Trace} {s : State} (h : CanisterRun tr s) (hissued : issuedCount tr < 2 ^ 64)
    (r : Request tr) : r.view.challengeId.toNat = issuedCount (tr.take r.index) := by
  obtain ⟨hbefore, hst⟩ := h.before r.occurs
  obtain ⟨hview, -⟩ := requested_step (treeInv_reachable hbefore).keyed hst r.requested
  rw [hview]
  exact nextChallengeId_toNat hbefore (lt_of_le_of_lt (issuedCount_take_le tr _) hissued)

theorem Request.issuedCount_lt {tr : Trace} (r : Request tr) {j : ℕ} (hlt : r.index < j) :
    issuedCount (tr.take r.index) < issuedCount (tr.take j) := by
  have hsucc : tr.take (r.index + 1) = tr.take r.index ++ [r.transition] := by
    rw [List.take_add_one, r.occurs]
    rfl
  have hone : issuedCount [r.transition] = 1 := by simp [issuedCount, r.requested.issues]
  calc issuedCount (tr.take r.index)
      < issuedCount (tr.take (r.index + 1)) := by rw [hsucc, issuedCount_append, hone]; exact Nat.lt_succ_self _
    _ ≤ issuedCount (tr.take j) := (List.take_sublist_take_left hlt).countP_le

theorem Request.transition_of_index {tr : Trace} {r r' : Request tr} (hindex : r.index = r'.index) :
    r.transition = r'.transition :=
  Option.some.inj (r.occurs.symm.trans (hindex ▸ r'.occurs))

theorem Request.view_of_index {tr : Trace} {r r' : Request tr} (hindex : r.index = r'.index) : r.view = r'.view := by
  obtain ⟨w, hreq⟩ := r.requested
  obtain ⟨w', hreq'⟩ := r'.requested
  rw [Request.transition_of_index hindex, hreq'] at hreq
  injection hreq with _ _ _ _ hreply
  injection hreply with hok
  injection hok with hview
  exact hview.symm

/-- No id is issued twice. -/
theorem Request.index_inj {tr : Trace} {s : State} (h : CanisterRun tr s) (hissued : issuedCount tr < 2 ^ 64)
    {r r' : Request tr} (hid : r.view.challengeId = r'.view.challengeId) : r.index = r'.index := by
  have heq : issuedCount (tr.take r.index) = issuedCount (tr.take r'.index) := by
    rw [← r.id_toNat h hissued, ← r'.id_toNat h hissued, hid]
  rcases Nat.lt_trichotomy r.index r'.index with hlt | heq' | hlt
  · exact absurd heq (Nat.ne_of_lt (r.issuedCount_lt hlt))
  · exact heq'
  · exact absurd heq.symm (Nat.ne_of_lt (r'.issuedCount_lt hlt))

/-! ## Stored challenges -/

/-- The challenge a request issued. -/
def Request.challenge {tr : Trace} (r : Request tr) : Challenge := issued r.transition.pre r.caller r.now.ns r.purpose

/-- A request of the first transitions, in a longer trace. -/
def Request.snoc {tr : Trace} (r : Request tr) (τ : Transition State Event) : Request (tr ++ [τ]) :=
  { r with occurs := List.getElem?_append_left (List.getElem?_eq_some_iff.1 r.occurs).1 ▸ r.occurs }

/-- Every stored challenge was issued under its id by some request, and only its consumed flag may have
moved since. -/
def IssuedBefore (tr : Trace) (s : State) : Prop :=
  ∀ id c, s.challenges.lookup id = some c → ∃ r : Request tr, r.view.challengeId = id ∧
    c = { r.challenge with consumed := c.consumed }

theorem IssuedBefore.step {tr : Trace} {s s' : State} {e : Event} (h : IssuedBefore tr s) (hk : Keyed s)
    (hst : Step s e s') : IssuedBefore (tr ++ [⟨s, e, s'⟩]) s' := by
  have hold : IssuedBefore (tr ++ [⟨s, e, s'⟩]) s := by
    intro id c hc
    obtain ⟨r, hid, hrc⟩ := h id c hc
    exact ⟨r.snoc _, hid, hrc⟩
  intro id c hc
  cases challenge_step hk hst with
  | neither _ _ hlook =>
    obtain h | ⟨h, -⟩ := hlook id
    · exact hold id c (h ▸ hc)
    · rw [h] at hc
      cases hc
  | issue hreq heq =>
    rename_i caller now purpose
    subst heq
    have hc : (s.challenges.insert s.nextChallengeId (issued s caller now.ns purpose)).lookup id = some c := hc
    rw [lookup_insert] at hc
    split at hc
    · -- the challenge just issued, by the last transition
      rename_i hid
      cases hc
      exact ⟨⟨tr.length, _, List.getElem?_concat_length, caller, now, purpose, _, hreq⟩, hid.symm, rfl⟩
    · exact hold id c hc
  | answer hv hp heq =>
    rename_i w caller now id' proofBytes publicInputs c' v
    subst heq
    have hc : (s.challenges.insert id' { c' with consumed := true }).lookup id = some c := hc
    rw [lookup_insert] at hc
    split at hc
    · rename_i hid
      cases hc
      obtain ⟨r, hrid, hrc⟩ := hold id' c' hp.stored
      exact ⟨r, hrid.trans hid.symm, congrArg (fun d : Challenge => { d with consumed := true }) hrc⟩
    · exact hold id c hc

theorem issuedBefore_run {tr : Trace} {s : State} (h : CanisterRun tr s) : IssuedBefore tr s :=
  h.invariant_history (fun _ _ hc => by cases hc) fun _ _ _ _ hr ih hst => ih.step (treeInv_reachable hr).keyed hst

/-- A stored challenge has the id of one of the challenges issued. -/
theorem stored_id_lt {tr : Trace} {s : State} (h : CanisterRun tr s) (hissued : issuedCount tr < 2 ^ 64) {id : UInt64}
    {c : Challenge} (hc : s.challenges.lookup id = some c) : id.toNat < issuedCount tr := by
  obtain ⟨r, rfl, -⟩ := issuedBefore_run h id c hc
  have hlt := r.issuedCount_lt (List.getElem?_eq_some_iff.1 r.occurs).1
  rw [List.take_length] at hlt
  rw [r.id_toNat h hissued]
  exact hlt

/-- An id once issued is never the next one again. -/
theorem id_ne_next {tr : Trace} {s : State} (h : CanisterRun tr s) (hissued : issuedCount tr < 2 ^ 64) {id : UInt64}
    (hid : id.toNat < issuedCount tr) : id ≠ s.nextChallengeId := by
  rintro rfl
  rw [nextChallengeId_toNat h hissued] at hid
  exact Nat.lt_irrefl _ hid

theorem requestCalls_le_append (tr tr' : Trace) : requestCalls tr ≤ requestCalls (tr ++ tr') :=
  (List.sublist_append_left tr tr').countP_le

theorem issuedCount_le_append (tr tr' : Trace) : issuedCount tr ≤ issuedCount (tr ++ tr') :=
  (List.sublist_append_left tr tr').countP_le

/-- No step unconsumes a challenge, as long as it does not issue its id again. -/
theorem consumed_step {s s' : State} {e : Event} (hk : Keyed s) (hst : Step s e s') {id : UInt64}
    (hid : id ≠ s.nextChallengeId) (h : ∀ c, s.challenges.lookup id = some c → c.consumed = true) :
    ∀ c, s'.challenges.lookup id = some c → c.consumed = true := by
  intro c hlook
  cases challenge_step hk hst with
  | neither _ _ hkeep =>
    obtain heq | ⟨hnone, -⟩ := hkeep id
    · exact h c (heq ▸ hlook)
    · rw [hnone] at hlook
      cases hlook
  | issue _ heq =>
    rename_i caller now purpose _
    subst heq
    have hlook : (s.challenges.insert s.nextChallengeId (issued s caller now.ns purpose)).lookup id = some c := hlook
    rw [lookup_insert, if_neg hid] at hlook
    exact h c hlook
  | answer _ _ heq =>
    rename_i w caller now id' proofBytes publicInputs c' v _ _
    subst heq
    have hlook : (s.challenges.insert id' { c' with consumed := true }).lookup id = some c := hlook
    rw [lookup_insert] at hlook
    split at hlook
    · cases hlook
      rfl
    · exact h c hlook

/-- A consumed challenge is never stored unconsumed again. -/
theorem consumed_run {tr tr' : Trace} {s s' : State} (h : CanisterRun tr s) (h' : Run Step s tr' s')
    (hissued : issuedCount (tr ++ tr') < 2 ^ 64) {id : UInt64} (hid : id.toNat < issuedCount tr)
    (hc : ∀ c, s.challenges.lookup id = some c → c.consumed = true) :
    ∀ c, s'.challenges.lookup id = some c → c.consumed = true := by
  -- the id stays below the number of challenges issued, so that no step issues it again
  refine (h.invariant_from h' (P := fun tr s => issuedCount tr < 2 ^ 64 → id.toNat < issuedCount tr ∧
    ∀ c, s.challenges.lookup id = some c → c.consumed = true) (fun _ => ⟨hid, hc⟩) ?_ hissued).2
  intro tr s e s' hr ih hst hissued
  have hissued := lt_of_le_of_lt (issuedCount_le_append _ _) hissued
  obtain ⟨hid, hc⟩ := ih hissued
  refine ⟨?_, consumed_step (treeInv_reachable hr).keyed hst (id_ne_next hr hissued hid) hc⟩
  rw [issuedCount_append]
  exact Nat.lt_add_right _ hid

/-! ## Agreement -/

/-- What the verifier is given for a request made at `nowNs` while the registry had `root`. -/
def requestInputs (root : BaseElement) (purpose requestNonce : UInt64) (nowNs : Int) (v : BaseElement) :
    PublicInputs where
  registryId := BaseElement.new 1
  merkleRoot := root
  purpose := fe purpose
  requestNonce := fe requestNonce
  currentTimestamp := BaseElement.new (nowNs / 1000000000).toNat
  nullifier := v

/-- An accepted proof answers a request: it comes later, from the same caller, within the lifetime of the
challenge, and its proof was verified against the registry root and the values of the request. -/
structure Answers {tr : Trace} (a : Acceptance tr) (r : Request tr) : Prop where
  earlier : r.index < a.index
  caller : a.caller = r.caller
  challengeId : a.challengeId = r.view.challengeId
  notBefore : r.now.ns ≤ a.now.ns
  inTime : a.now.ns ≤ r.now.ns + challengeTtlNs
  inputs : ∃ v, parseFe a.publicInputs.nullifier = .ok v ∧
    airPubInputs a.publicInputs =
      .ok (requestInputs r.transition.pre.currentRoot r.purpose r.view.requestNonce r.now.ns v) ∧
    a.winterfell a.proofBytes
      (requestInputs r.transition.pre.currentRoot r.purpose r.view.requestNonce r.now.ns v) = .accepted

theorem i64_le {x : Int} (h : 0 ≤ x) : i64 x ≤ x := by
  unfold i64 Int.bmod
  norm_num
  omega

theorem timestamp_toNat (now : Time) :
    (UInt64.ofInt (now.ns.tdiv 1000000000)).toNat = (now.ns / 1000000000).toNat := by
  have h0 := now.nonneg
  have hlt := now.lt
  rw [Int.tdiv_eq_ediv_of_nonneg h0]
  unfold UInt64.ofInt
  rw [UInt64.toNat_ofNat']
  norm_num
  omega

/-- An accepted proof was checked against an earlier request of its caller, whose challenge was stored. -/
theorem Acceptance.stored {tr : Trace} {s : State} (h : CanisterRun tr s) (a : Acceptance tr) :
    ∃ (r : Request tr) (c : Challenge) (v : BaseElement), r.index < a.index ∧ r.view.challengeId = a.challengeId ∧
      c = { r.challenge with consumed := c.consumed } ∧
      Passes a.transition.pre a.caller a.now.ns a.challengeId a.publicInputs c v ∧
      a.winterfell a.proofBytes
        ⟨fe c.registryId, c.merkleRoot, fe c.purpose, fe c.requestNonce, fe c.currentTimestamp, v⟩ = .accepted := by
  obtain ⟨hbefore, hst⟩ := h.before a.occurs
  obtain ⟨c, v, hp, hw, -⟩ := verified_step (treeInv_reachable hbefore).keyed hst a.verified
  obtain ⟨r, hid, hc⟩ := issuedBefore_run hbefore _ _ hp.stored
  exact ⟨r.ofTake, c, v, r.ofTake_lt, hid, hc, hp, hw⟩

theorem Request.view_eq {tr : Trace} {s : State} (h : CanisterRun tr s) (r : Request tr) :
    r.view = viewOf r.transition.pre.nextChallengeId r.challenge := by
  obtain ⟨hbefore, hst⟩ := h.before r.occurs
  exact (requested_step (treeInv_reachable hbefore).keyed hst r.requested).1

/-- The verifier is given the root and the values of the request, whatever the registry is now. -/
theorem Acceptance.inputs {tr : Trace} {s : State} (h : CanisterRun tr s) (a : Acceptance tr) :
    ∃ (r : Request tr) (v : BaseElement), r.index < a.index ∧ a.caller = r.caller ∧
      a.challengeId = r.view.challengeId ∧ a.now.ns ≤ r.now.ns + challengeTtlNs ∧
      parseFe a.publicInputs.nullifier = .ok v ∧
      airPubInputs a.publicInputs =
        .ok (requestInputs r.transition.pre.currentRoot r.purpose r.view.requestNonce r.now.ns v) ∧
      a.winterfell a.proofBytes
        (requestInputs r.transition.pre.currentRoot r.purpose r.view.requestNonce r.now.ns v) = .accepted := by
  obtain ⟨r, c, v, hlt, hid, hc, hp, hw⟩ := a.stored h
  have htimestamp : fe c.currentTimestamp = BaseElement.new (r.now.ns / 1000000000).toNat := by
    rw [hc, ← timestamp_toNat r.now]
    rfl
  have hinputs : (⟨fe c.registryId, c.merkleRoot, fe c.purpose, fe c.requestNonce, fe c.currentTimestamp, v⟩ : PublicInputs) =
      requestInputs r.transition.pre.currentRoot r.purpose r.view.requestNonce r.now.ns v := by
    rw [r.view_eq h, htimestamp, hc]
    rfl
  have hexp : c.expiresAt = i64 (r.now.ns + challengeTtlNs) := by rw [hc]; rfl
  have htime : a.now.ns ≤ i64 (r.now.ns + challengeTtlNs) := hexp ▸ hp.inTime
  refine ⟨r, v, hlt, ?_, hid.symm, htime.trans (i64_le (Int.add_nonneg r.now.nonneg (by norm_num))), hp.nullifier, ?_, ?_⟩
  · rw [hp.requester, hc]
    rfl
  · rw [airPubInputs_of_passes hp, hinputs]
  · rw [← hinputs]
    exact hw

/-- Every accepted proof answers a request. -/
theorem Acceptance.answers {tr : Trace} {s : State} (h : CanisterRun tr s) (hclock : Clock tr) (a : Acceptance tr) :
    ∃ r, Answers a r := by
  obtain ⟨r, v, hlt, hcaller, hid, hexp, hnull, hinputs, hw⟩ := a.inputs h
  have htime : r.now.ns ≤ a.now.ns := by
    have := hclock.le hlt r.occurs a.occurs
    obtain ⟨w, hreq⟩ := r.requested
    obtain ⟨ok, hver⟩ := a.verified
    rw [hreq, hver] at this
    exact this
  exact ⟨r, hlt, hcaller, hid, htime, hexp, v, hnull, hinputs, hw⟩

/-- A challenge once answered is not accepted again. -/
theorem Acceptance.challengeId_ne {tr : Trace} {s : State} (h : CanisterRun tr s) (hissued : issuedCount tr < 2 ^ 64)
    {a a' : Acceptance tr} (hlt : a.index < a'.index) : a.challengeId ≠ a'.challengeId := by
  intro heq
  obtain ⟨hbefore, hst⟩ := h.before a.occurs
  obtain ⟨c, v, hp, -, hpost⟩ := verified_step (treeInv_reachable hbefore).keyed hst a.verified
  obtain ⟨hbefore', hst'⟩ := h.before a'.occurs
  obtain ⟨c', v', hp', -, -⟩ := verified_step (treeInv_reachable hbefore').keyed hst' a'.verified
  have ha : (tr.take a'.index)[a.index]? = some a.transition := by rw [List.getElem?_take_of_lt hlt, a.occurs]
  have hissued' := lt_of_le_of_lt (issuedCount_take_le tr a'.index) hissued
  have hsplit := List.take_append_drop (a.index + 1) (tr.take a'.index)
  have hid : a.challengeId.toNat < issuedCount ((tr.take a'.index).take (a.index + 1)) := by
    refine lt_of_lt_of_le (stored_id_lt hbefore (lt_of_le_of_lt (issuedCount_take_le tr _) hissued) hp.stored) ?_
    rw [List.take_take, Nat.min_eq_left hlt]
    exact (List.take_sublist_take_left (Nat.le_succ _)).countP_le
  -- the challenge is consumed from the first answer on, and stored unconsumed at the second
  have hconsumed := consumed_run (hbefore'.upto ha) (hbefore'.after ha) (by rw [hsplit]; exact hissued') hid (by
    intro d hd
    rw [hpost] at hd
    have hd : (a.transition.pre.challenges.insert a.challengeId { c with consumed := true }).lookup a.challengeId =
      some d := hd
    rw [lookup_insert, if_pos rfl] at hd
    cases hd
    rfl)
  have := hconsumed c' (heq ▸ hp'.stored)
  rw [hp'.unconsumed] at this
  cases this

/-- Requests and accepted proofs agree one to one: every accepted proof answers exactly one request, the
only one that returned its challenge id, and no request is answered twice. -/
theorem injective_agreement {tr : Trace} {s : State} (h : CanisterRun tr s) (hcalls : requestCalls tr < 2 ^ 64)
    (hclock : Clock tr) :
    (∀ a : Acceptance tr, ∃ r, Answers a r ∧
      ∀ r' : Request tr, r'.view.challengeId = a.challengeId → r'.index = r.index) ∧
    ∀ (a a' : Acceptance tr) (r r' : Request tr), Answers a r → Answers a' r' → r.index = r'.index →
      a.index = a'.index := by
  have hissued := (issuedCount_le tr).trans_lt hcalls
  constructor
  · intro a
    obtain ⟨r, hr⟩ := a.answers h hclock
    exact ⟨r, hr, fun r' hid => Request.index_inj h hissued (hid.trans hr.challengeId)⟩
  · intro a a' r r' hr hr' hindex
    have hid : a.challengeId = a'.challengeId := by
      rw [hr.challengeId, hr'.challengeId]
      rw [Request.view_of_index hindex]
    rcases Nat.lt_trichotomy a.index a'.index with hlt | heq | hlt
    · exact absurd hid (Acceptance.challengeId_ne h hissued hlt)
    · exact heq
    · exact absurd hid.symm (Acceptance.challengeId_ne h hissued hlt)

/-- Two answers, one request each. -/
theorem injective_agreement_sample : ∃ r r' : Request twiceTrace, Answers firstAnswer r ∧ Answers secondAnswer r' ∧
    r.index ≠ r'.index ∧ ∀ r₀ : Request twiceTrace, r₀.view.challengeId = firstAnswer.challengeId → r₀.index = r.index := by
  have htime : ∀ τ ∈ twiceTrace, τ.label.time = 0 :=
    List.forall_mem_cons.2 ⟨rfl, List.forall_mem_cons.2 ⟨rfl, List.forall_mem_cons.2 ⟨rfl, List.forall_mem_singleton.2 rfl⟩⟩⟩
  obtain ⟨hanswers, hinj⟩ := injective_agreement twice_run (by decide) (.of_time htime)
  obtain ⟨r, hr, hunique⟩ := hanswers firstAnswer
  obtain ⟨r', hr', -⟩ := hanswers secondAnswer
  refine ⟨r, r', hr, hr', fun hindex => ?_, hunique⟩
  have hsame : 1 = 3 := hinj _ _ r r' hr hr' hindex
  exact absurd hsame (by decide)

end Yaqeen.Canister
