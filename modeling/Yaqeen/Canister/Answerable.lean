/-
An issued challenge stays answerable until it expires: no operation of anyone but an accepted answer of
its requester touches it, and nothing but the requester's own calls delays that answer. The one way to
lose it is to make the `u64` id counter wrap around, which takes `2^64` challenges.
-/
import Yaqeen.Canister.Challenges
import Yaqeen.Canister.Throttle

namespace Yaqeen.Canister

open Air FinMap Runs

/-! ## The throttle of verify -/

/-- The most recent `verify` call of `p` that passed the throttle was made at `t`. -/
def LastPassed (tr : Trace) (p : Principal) (t : Time) : Prop :=
  ∃ before τ after, tr = before ++ τ :: after ∧ PassedThrottle τ.label p t ∧
    ∀ τ' ∈ after, ∀ t', ¬ PassedThrottle τ'.label p t'

theorem LastPassed.snoc {tr : Trace} {p : Principal} {t : Time} (h : LastPassed tr p t) {τ : Transition State Event}
    (hτ : ∀ t', ¬ PassedThrottle τ.label p t') : LastPassed (tr ++ [τ]) p t := by
  obtain ⟨before, τ₀, after, rfl, hp, hafter⟩ := h
  refine ⟨before, τ₀, after ++ [τ], by rw [List.append_assoc, List.cons_append], hp, fun τ' hτ' t' => ?_⟩
  rcases List.mem_append.1 hτ' with h | h
  · exact hafter τ' h t'
  · rw [List.mem_singleton.1 h]
    exact hτ t'

theorem PassedThrottle.last {τ : Transition State Event} {p : Principal} {t : Time} (h : PassedThrottle τ.label p t)
    (tr : Trace) : LastPassed (tr ++ [τ]) p t :=
  ⟨tr, τ, [], rfl, h, fun _ hτ' => by cases hτ'⟩

/-- The throttle entry of a principal is the time of its own last call that passed. -/
def EntriesPassed (tr : Trace) (s : State) : Prop :=
  ∀ p last, s.lastVerifyCallAt.lookup p = some last → ∃ t : Time, t.ns = last ∧ LastPassed tr p t

theorem EntriesPassed.step {tr : Trace} {s s' : State} {e : Event} (h : EntriesPassed tr s) (hk : Keyed s)
    (hst : Step s e s') : EntriesPassed (tr ++ [⟨s, e, s'⟩]) s' := by
  intro p last hl
  obtain ⟨t, hp, ht⟩ | ⟨hl, hno⟩ := (throttle_step .verify hk hst).entry hl
  · have hp : PassedThrottle e p t := hp
    exact ⟨t, ht, PassedThrottle.last (τ := ⟨s, e, s'⟩) hp tr⟩
  · obtain ⟨t, ht, hlast⟩ := h p last hl
    exact ⟨t, ht, hlast.snoc hno⟩

theorem entriesPassed_run {tr : Trace} {s : State} (h : CanisterRun tr s) : EntriesPassed tr s :=
  h.invariant_history (fun _ _ hl => by cases hl) fun _ _ _ _ hr ih hst => ih.step (treeInv_reachable hr).keyed hst

/-! ## A challenge survives -/

/-- A step before its expiry keeps a challenge, unless it is an accepted answer of the requester. -/
theorem kept_step {s s' : State} {e : Event} (hk : Keyed s) (hst : Step s e s') {id : UInt64} {c : Challenge}
    (hid : id ≠ s.nextChallengeId) (hc : s.challenges.lookup id = some c) (htime : e.time ≤ c.expiresAt)
    (hno : ∀ w now proofBytes publicInputs, ¬ Verified e w c.requester now id proofBytes publicInputs) :
    s'.challenges.lookup id = some c := by
  cases challenge_step hk hst with
  | neither _ _ hlook =>
    obtain h | ⟨-, c', hc', hexp⟩ := hlook id
    · rw [h, hc]
    · rw [hc] at hc'
      cases hc'
      exact absurd htime (not_le.2 hexp)
  | issue _ heq =>
    rename_i caller now purpose _
    rw [heq]
    show (s.challenges.insert s.nextChallengeId (issued s caller now.ns purpose)).lookup id = some c
    rw [lookup_insert, if_neg hid, hc]
  | answer hv hp heq =>
    rename_i w caller now id' proofBytes publicInputs c' v
    rw [heq]
    show (s.challenges.insert id' { c' with consumed := true }).lookup id = some c
    rw [lookup_insert]
    split
    · rename_i hid'
      subst hid'
      -- an answer that passes is the requester's own
      have hcc : c' = c := Option.some.inj (hp.stored.symm.trans hc)
      have hcaller : caller = c.requester := hcc ▸ hp.requester
      subst hcaller
      exact absurd hv (hno _ _ _ _)
    · exact hc

theorem kept_run {tr tr' : Trace} {s s' : State} (h : CanisterRun tr s) (h' : Run Step s tr' s')
    (hissued : issuedCount (tr ++ tr') < 2 ^ 64) {id : UInt64} {c : Challenge} (hc : s.challenges.lookup id = some c)
    (htime : ∀ τ ∈ tr', τ.label.time ≤ c.expiresAt)
    (hno : ∀ τ ∈ tr', ∀ w now proofBytes publicInputs,
      ¬ Verified τ.label w c.requester now id proofBytes publicInputs) :
    s'.challenges.lookup id = some c := by
  have hid := stored_id_lt h (lt_of_le_of_lt (issuedCount_le_append tr tr') hissued) hc
  induction h' with
  | nil => exact hc
  | snoc hr hst ih =>
    rename_i tr₁ s₁ e s₂
    rw [← List.append_assoc] at hissued
    have hissued₁ := lt_of_le_of_lt (issuedCount_le_append _ _) hissued
    have hid₁ : id.toNat < issuedCount (tr ++ tr₁) := by
      rw [issuedCount_append]
      exact Nat.lt_add_right _ hid
    have hmem : ∀ τ ∈ tr₁, τ ∈ tr₁ ++ [⟨s₁, e, s₂⟩] := fun τ hτ => List.mem_append_left _ hτ
    have hlast : (⟨s₁, e, s₂⟩ : Transition State Event) ∈ tr₁ ++ [⟨s₁, e, s₂⟩] :=
      List.mem_append_right _ List.mem_cons_self
    refine kept_step (treeInv_reachable (h.append hr)).keyed hst (id_ne_next (h.append hr) hissued₁ hid₁)
      (ih hissued₁ (fun τ hτ => htime τ (hmem τ hτ)) fun τ hτ => hno τ (hmem τ hτ)) (htime _ hlast) (hno _ hlast)

/-- A call at least the minimal interval after the last one that passed is not too early. -/
theorem not_recent {tr : Trace} {s : State} (h : CanisterRun tr s) {p : Principal} {now : Time}
    (hlast : ∀ t, LastPassed tr p t → t.ns + minCallIntervalNs ≤ now.ns) : ¬ Recent s.lastVerifyCallAt p now.ns := by
  rintro ⟨last, hl, hlt⟩
  obtain ⟨t, rfl, hpassed⟩ := entriesPassed_run h p last hl
  have hmin := hlast t hpassed
  have h0 := t.nonneg
  have h1 := now.lt
  unfold minCallIntervalNs at hmin hlt
  rw [i64_of_range (by omega) (by omega)] at hlt
  omega

theorem verifyPrecheckImpl_of_passes {s : State} {caller : Principal} {nowNs : Int} {id : UInt64}
    {publicInputs : VerifyPublicInputs} {c : Challenge} {v : BaseElement} (ha : caller ≠ Principal.anonymous)
    (hr : ¬ Recent s.lastVerifyCallAt caller nowNs) (hp : Passes s caller nowNs id publicInputs c v) :
    (verifyPrecheckImpl s caller nowNs id publicInputs).1 = .ok () := by
  rw [verifyPrecheckImpl_eq (checkAndUpdateThrottle_ok s.verifyThrottleLog ha hr)]
  exact checkChallenge_of_passes hp.touch

/-- While fewer than `2^64` challenges are issued, an unconsumed challenge survives, with every field,
any steps before its expiry that are not an accepted answer of its requester; and then an answer of the
requester with the issued inputs and an unspent nullifier, made the minimal interval after its own last
call that passed the throttle, passes the checks. -/
theorem challenge_stays_answerable {tr tr' : Trace} {s s' : State} (h : CanisterRun tr s) (h' : Run Step s tr' s')
    (hissued : issuedCount (tr ++ tr') < 2 ^ 64) {id : UInt64} {c : Challenge} (hc : s.challenges.lookup id = some c)
    (hun : c.consumed = false) (htime : ∀ τ ∈ tr', τ.label.time ≤ c.expiresAt)
    (hno : ∀ τ ∈ tr', ∀ w now proofBytes publicInputs,
      ¬ Verified τ.label w c.requester now id proofBytes publicInputs) :
    s'.challenges.lookup id = some c ∧
      ∀ (now : Time) (publicInputs : VerifyPublicInputs) (v : BaseElement), c.requester ≠ Principal.anonymous →
        now.ns ≤ c.expiresAt → (∀ t, LastPassed (tr ++ tr') c.requester t → t.ns + minCallIntervalNs ≤ now.ns) →
        publicInputs.registryId = c.registryId → parseFe publicInputs.merkleRoot = .ok c.merkleRoot →
        publicInputs.purpose = c.purpose → publicInputs.requestNonce = c.requestNonce →
        publicInputs.currentTimestamp = c.currentTimestamp → parseFe publicInputs.nullifier = .ok v →
        s'.nullifiers.lookup (feToString v) ≠ some true →
        (verifyPrecheckImpl s' c.requester now.ns id publicInputs).1 = .ok () := by
  have hkept := kept_run h h' hissued hc htime hno
  refine ⟨hkept, fun now publicInputs v hanon hexp hlast hreg hroot hpurpose hnonce hts hnull hspent => ?_⟩
  have hunspent : (s'.nullifiers.lookup (feToString v)).getD false = false := by
    cases hl : s'.nullifiers.lookup (feToString v) with
    | none => rfl
    | some b =>
      cases b with
      | false => rfl
      | true => exact absurd hl hspent
  exact verifyPrecheckImpl_of_passes hanon (not_recent (h.append h') hlast)
    ⟨hkept, rfl, hun, hexp, hreg, hroot, hpurpose, hnonce, hts, hnull, hunspent⟩

/-! ## The sample challenge in a crowd -/

/-- The principals of a crowd, with nine bytes each. -/
def member (n : ℕ) : Principal := ⟨3 :: (List.range 8).map fun k => UInt8.ofNat (n / 256 ^ k)⟩

/-- The state after the owner and then the first `n` members of the crowd have requested a challenge each. -/
def crowd : ℕ → State
  | 0 => request freshState owner 0 1
  | n + 1 => request (crowd n) (member n) 0 1

theorem member_inj {n m : ℕ} (hn : n < 2 ^ 64) (hm : m < 2 ^ 64) (h : member n = member m) : n = m := by
  have hk : ∀ k < 8, n / 256 ^ k % 256 = m / 256 ^ k % 256 := by
    intro k hk
    have := congrArg (fun p : Principal => p.bytes[k + 1]?) h
    simp only [member, List.getElem?_cons_succ, List.getElem?_map, List.getElem?_range hk, Option.map_some,
      Option.some.injEq] at this
    have := congrArg UInt8.toNat this
    rwa [UInt8.toNat_ofNat', UInt8.toNat_ofNat'] at this
  have h0 := hk 0 (by norm_num)
  have h1 := hk 1 (by norm_num)
  have h2 := hk 2 (by norm_num)
  have h3 := hk 3 (by norm_num)
  have h4 := hk 4 (by norm_num)
  have h5 := hk 5 (by norm_num)
  have h6 := hk 6 (by norm_num)
  have h7 := hk 7 (by norm_num)
  norm_num at h0 h1 h2 h3 h4 h5 h6 h7
  omega

theorem member_ne_owner (n : ℕ) : member n ≠ owner := by
  intro h
  have : some (3 : UInt8) = some 2 := congrArg (fun p : Principal => p.bytes.head?) h
  exact absurd this (by decide)

theorem member_ne_anonymous (n : ℕ) : member n ≠ Principal.anonymous := by
  intro h
  have : some (3 : UInt8) = some 4 := congrArg (fun p : Principal => p.bytes.head?) h
  exact absurd this (by decide)

theorem crowd_lastChallengeCallAt : ∀ n p last, (crowd n).lastChallengeCallAt.lookup p = some last →
    p = owner ∨ ∃ k < n, p = member k
  | 0, p, last, h => by
    have h : (freshState.lastChallengeCallAt.insert owner 0).lookup p = some last := h
    rw [lookup_insert] at h
    split at h
    · rename_i hp
      exact .inl hp
    · cases h
  | n + 1, p, last, h => by
    have h : ((crowd n).lastChallengeCallAt.insert (member n) 0).lookup p = some last := h
    rw [lookup_insert] at h
    split at h
    · rename_i hp
      exact .inr ⟨n, Nat.lt_succ_self n, hp⟩
    · obtain hp | ⟨k, hk, hp⟩ := crowd_lastChallengeCallAt n p last h
      · exact .inl hp
      · exact .inr ⟨k, Nat.lt_succ_of_lt hk, hp⟩

theorem crowd_step {n : ℕ} (hn : n < 2 ^ 64) : Step (crowd n) (.call rejectAll (member n) timeZero (.requestChallenge 1)
    (.challenge (.ok (viewOf (crowd n).nextChallengeId (issued (crowd n) (member n) 0 1))))) (crowd (n + 1)) := by
  refine step_request rejectAll 1 (member_ne_anonymous n) ?_
  rintro ⟨last, hlast, -⟩
  obtain h | ⟨k, hk, h⟩ := crowd_lastChallengeCallAt n _ last hlast
  · exact member_ne_owner n h
  · exact absurd (member_inj hn (hk.trans hn) h) (Nat.ne_of_gt hk)

/-- The crowd makes its requests at once and does nothing else. -/
theorem crowd_run : ∀ n ≤ 2 ^ 64, ∃ tr, Run Step (crowd 0) tr (crowd n) ∧ issuedCount tr = n ∧
    ∀ τ ∈ tr, τ.label.time = 0 ∧ τ.label.isRequest = true
  | 0, _ => ⟨[], .nil, rfl, fun _ hτ => by cases hτ⟩
  | n + 1, hn => by
    obtain ⟨tr, hrun, hcount, hall⟩ := crowd_run n (Nat.le_of_succ_le hn)
    refine ⟨_, hrun.snoc (crowd_step hn), ?_, fun τ hτ => ?_⟩
    · rw [issuedCount_append, hcount]
      rfl
    · rcases List.mem_append.1 hτ with h | h
      · exact hall τ h
      · rw [List.mem_singleton.1 h]
        exact ⟨rfl, rfl⟩

theorem crowd_nextChallengeId : ∀ n, (crowd n).nextChallengeId = UInt64.ofNat (n + 1)
  | 0 => rfl
  | n + 1 => by
    show (crowd n).nextChallengeId + 1 = UInt64.ofNat (n + 1 + 1)
    rw [crowd_nextChallengeId n, UInt64.ofNat_add (n + 1) 1]
    rfl

/-- Requests are neither accepted proofs nor calls of `verify`. -/
theorem not_verified_of_isRequest {e : Event} (h : e.isRequest = true) {w : Winterfell} {caller : Principal}
    {now : Time} {id : UInt64} {proofBytes : List UInt8} {publicInputs : VerifyPublicInputs} :
    ¬ Verified e w caller now id proofBytes publicInputs := by
  rintro ⟨ok, rfl⟩
  cases h

theorem not_lastPassed {tr : Trace} (h : ∀ τ ∈ tr, τ.label.isRequest = true) (p : Principal) (t : Time) :
    ¬ LastPassed tr p t := by
  rintro ⟨before, τ, after, rfl, ⟨w, id, proofBytes, publicInputs, r, hτ, -⟩, -⟩
  have := h τ (List.mem_append_right _ List.mem_cons_self)
  rw [hτ] at this
  cases this

theorem crowd_nullifiers : ∀ n, (crowd n).nullifiers = ∅
  | 0 => rfl
  | n + 1 => crowd_nullifiers n

/-- Among a thousand other requests the owner can still answer. -/
theorem challenge_stays_answerable_sample :
    (verifyPrecheckImpl (crowd 1000) owner 0 0 (sampleInputs freshState 7)).1 = .ok () := by
  have hp := sample_passes quiet_fresh 7
  obtain ⟨tr, hrun, hcount, hall⟩ := crowd_run 1000 (by norm_num)
  have hissued : issuedCount ([requestTransition freshState] ++ tr) < 2 ^ 64 := by
    have hone : issuedCount [requestTransition freshState] = 1 := rfl
    rw [issuedCount_append, hone, hcount]
    norm_num
  refine (challenge_stays_answerable requested_run hrun hissued hp.stored hp.unconsumed
    (fun τ hτ => (hall τ hτ).1 ▸ hp.inTime) fun τ hτ _ _ _ _ => not_verified_of_isRequest (hall τ hτ).2).2
    timeZero (sampleInputs freshState 7) 7 (by decide) hp.inTime (fun t ht => ?_) hp.registryId hp.merkleRoot hp.purpose
    hp.requestNonce hp.currentTimestamp hp.nullifier fun hspent => ?_
  · refine absurd ht (not_lastPassed (fun τ hτ => ?_) _ t)
    rcases List.mem_append.1 hτ with h | h
    · rw [List.mem_singleton.1 h]
      rfl
    · exact (hall τ h).2
  · rw [crowd_nullifiers] at hspent
    cases hspent

/-- Once `2^64` others have requested a challenge, all before it expires, it is another principal's. -/
theorem challenge_overwritten_by_wraparound :
    (∃ tr, CanisterRun tr (crowd 0)) ∧
    (crowd 0).challenges.lookup 0 = some (issued freshState owner 0 1) ∧
    (issued freshState owner 0 1).consumed = false ∧
    (∃ tr, Run Step (crowd 0) tr (crowd (2 ^ 64)) ∧ Clock tr ∧
      (∀ τ ∈ tr, τ.label.time ≤ (issued freshState owner 0 1).expiresAt) ∧
      ∀ τ ∈ tr, ∀ w now proofBytes publicInputs, ¬ Verified τ.label w owner now 0 proofBytes publicInputs) ∧
    (crowd (2 ^ 64)).challenges.lookup 0 ≠ some (issued freshState owner 0 1) := by
  have hp := sample_passes quiet_fresh 7
  refine ⟨⟨_, requested_run⟩, hp.stored, rfl, ?_, ?_⟩
  · obtain ⟨tr, hrun, -, hall⟩ := crowd_run (2 ^ 64) le_rfl
    exact ⟨tr, hrun, .of_time fun τ hτ => (hall τ hτ).1, fun τ hτ => (hall τ hτ).1 ▸ hp.inTime, fun τ hτ _ _ _ _ =>
      not_verified_of_isRequest (hall τ hτ).2⟩
  · obtain ⟨n, hn⟩ : ∃ n, 2 ^ 64 = n + 1 := ⟨2 ^ 64 - 1, by norm_num⟩
    have hid : (crowd n).nextChallengeId = 0 := by
      rw [crowd_nextChallengeId, ← hn]
      rfl
    rw [hn]
    intro h
    have h : ((crowd n).challenges.insert (crowd n).nextChallengeId (issued (crowd n) (member n) 0 1)).lookup 0 =
      some (issued freshState owner 0 1) := h
    rw [hid, lookup_insert, if_pos rfl] at h
    exact member_ne_owner n (congrArg Challenge.requester (Option.some.inj h))

end Yaqeen.Canister
