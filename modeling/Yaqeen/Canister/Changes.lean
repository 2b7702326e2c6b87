/-
What each operation does to the state, said once: the outcomes of the throttle, of the checks of
`verify` and of the two prunings, and from them every change a step of the system can make.
-/
import Yaqeen.Canister.System
import Yaqeen.Lib.LoggedMap

namespace Yaqeen.Canister

open Air FinMap Runs

/-! ## The throttle -/

/-- The last call of `caller` was less than the minimal interval ago. -/
def Recent (store : HashMap Principal Int) (caller : Principal) (nowNs : Int) : Prop :=
  ∃ last ∈ store.lookup caller, i64 (nowNs - last) < minCallIntervalNs

section

variable {store : HashMap Principal Int} {log : List (Principal × Int)} {caller : Principal} {nowNs : Int}

/-- A caller without an entry has made no recent call. -/
theorem not_recent_of_none (h : store.lookup caller = none) : ¬ Recent store caller nowNs := by
  rintro ⟨last, hlast, -⟩
  rw [h] at hlast
  cases hlast

theorem checkAndUpdateThrottle_anonymous (ha : caller = Principal.anonymous) :
    checkAndUpdateThrottle store log caller nowNs = (.error "anonymous callers are not permitted", store, log) := by
  unfold checkAndUpdateThrottle
  rw [if_pos ha]

theorem checkAndUpdateThrottle_recent (ha : caller ≠ Principal.anonymous) (hr : Recent store caller nowNs) :
    checkAndUpdateThrottle store log caller nowNs = (.error "rate limit: try again shortly", store, log) := by
  unfold Recent at hr
  unfold checkAndUpdateThrottle
  rw [if_neg ha, if_pos hr]

end

theorem checkAndUpdateThrottle_ok {store : HashMap Principal Int} (log : List (Principal × Int)) {caller : Principal}
    {nowNs : Int} (ha : caller ≠ Principal.anonymous) (hr : ¬ Recent store caller nowNs) :
    checkAndUpdateThrottle store log caller nowNs = (.ok (), store.insert caller nowNs, log ++ [(caller, nowNs)]) := by
  unfold Recent at hr
  unfold checkAndUpdateThrottle
  rw [if_neg ha, if_neg hr]

theorem checkAndUpdateThrottle_cases (store : HashMap Principal Int) (log : List (Principal × Int))
    (caller : Principal) (nowNs : Int) :
    (∃ e ∈ throttleErrors, checkAndUpdateThrottle store log caller nowNs = (.error e, store, log)) ∨
      (caller ≠ Principal.anonymous ∧ ¬ Recent store caller nowNs ∧
        checkAndUpdateThrottle store log caller nowNs =
          (.ok (), store.insert caller nowNs, log ++ [(caller, nowNs)])) := by
  by_cases ha : caller = Principal.anonymous
  · exact .inl ⟨_, List.mem_cons_self, checkAndUpdateThrottle_anonymous ha⟩
  by_cases hr : Recent store caller nowNs
  · exact .inl ⟨_, List.mem_cons_of_mem _ List.mem_cons_self, checkAndUpdateThrottle_recent ha hr⟩
  · exact .inr ⟨ha, hr, checkAndUpdateThrottle_ok log ha hr⟩

/-- An entry old enough to be pruned. -/
def Stale (nowNs ts : Int) : Prop := ¬ i64 (nowNs - ts) < throttleRetentionNs

instance (nowNs : Int) : DecidablePred (Stale nowNs) := fun _ => instDecidableNot

/-- The loop prunes a map backed by a log. -/
theorem pruneThrottleLog_eq (nowNs : Int) : ∀ n store log,
    pruneThrottleLog nowNs n store log = LoggedMap.prune (Stale nowNs) n store log
  | 0, _, _ => rfl
  | _ + 1, _, [] => rfl
  | n + 1, store, (p, ts) :: rest => by
    unfold pruneThrottleLog LoggedMap.prune
    by_cases hts : Stale nowNs ts
    · rw [if_pos hts, if_neg hts]
      exact pruneThrottleLog_eq nowNs n _ rest
    · rw [if_neg hts, if_pos (not_not.1 hts)]

theorem pruneThrottleLog_store (nowNs : Int) (n : ℕ) (store : HashMap Principal Int) (log : List (Principal × Int))
    (p : Principal) : (pruneThrottleLog nowNs n store log).1.lookup p = store.lookup p ∨
      (pruneThrottleLog nowNs n store log).1.lookup p = none := by
  rw [pruneThrottleLog_eq]
  obtain ⟨popped, rest, -, -, h⟩ := LoggedMap.prune_spec (Stale nowNs) n store log
  exact (h.lookup_cases p).imp id And.left

/-! ## The checks of verify -/

/-- A text that does not start like those of the throttle is not one of them. -/
theorem not_throttleError {e : String} {c : Char} (h : e.toList.head? = some c) (ha : c ≠ 'a') (hr : c ≠ 'r') :
    e ∉ throttleErrors := by
  intro hm
  simp only [throttleErrors, List.mem_cons, List.not_mem_nil, or_false] at hm
  rcases hm with rfl | rfl
  · exact ha (Option.some.inj h).symm
  · exact hr (Option.some.inj h).symm

/-- What the checks of `verify_precheck_impl` accept: the stored challenge `c`, and a submission that
matches it field by field with an unspent nullifier `v`. -/
structure Passes (s : State) (caller : Principal) (nowNs : Int) (challengeId : UInt64)
    (publicInputs : VerifyPublicInputs) (c : Challenge) (v : BaseElement) : Prop where
  stored : s.challenges.lookup challengeId = some c
  requester : caller = c.requester
  unconsumed : c.consumed = false
  inTime : nowNs ≤ c.expiresAt
  registryId : publicInputs.registryId = c.registryId
  merkleRoot : parseFe publicInputs.merkleRoot = .ok c.merkleRoot
  purpose : publicInputs.purpose = c.purpose
  requestNonce : publicInputs.requestNonce = c.requestNonce
  currentTimestamp : publicInputs.currentTimestamp = c.currentTimestamp
  nullifier : parseFe publicInputs.nullifier = .ok v
  unspent : (s.nullifiers.lookup (feToString v)).getD false = false

section

variable {s : State} {caller : Principal} {nowNs : Int} {challengeId : UInt64} {publicInputs : VerifyPublicInputs}

theorem parseFe_error {t e : String} (h : parseFe t = .error e) : e ∉ throttleErrors := by
  unfold parseFe at h
  split at h
  · cases h
    exact not_throttleError (c := 'c') (by rw [String.toList_append, String.toList_append]; rfl) (by decide) (by decide)
  · cases h

theorem checkChallenge_of_passes {c : Challenge} {v : BaseElement}
    (hp : Passes s caller nowNs challengeId publicInputs c v) :
    checkChallenge s caller nowNs challengeId publicInputs = .ok () := by
  have hlt : ¬ nowNs > c.expiresAt := not_lt.2 hp.inTime
  unfold checkChallenge
  simp only [hp.stored, hp.merkleRoot, canonicalNullifier, hp.nullifier, Except.map, hp.unspent, hp.unconsumed,
    ← hp.requester, ← hp.registryId, ← hp.purpose, ← hp.requestNonce, ← hp.currentTimestamp, hlt, ne_eq,
    not_true_eq_false, if_false, Bool.false_eq_true]

variable (s caller nowNs challengeId publicInputs)

/-- A submission passes, or is refused with a text that is not one of the throttle's. -/
theorem checkChallenge_cases : (∃ c v, Passes s caller nowNs challengeId publicInputs c v) ∨
    ∃ e, e ∉ throttleErrors ∧ checkChallenge s caller nowNs challengeId publicInputs = .error e := by
  unfold checkChallenge canonicalNullifier
  cases hc : s.challenges.lookup challengeId with
  | none => exact .inr ⟨_, by decide, rfl⟩
  | some c =>
  dsimp only
  by_cases hreq : caller ≠ c.requester
  · exact .inr ⟨_, by decide, if_pos hreq⟩
  rw [if_neg hreq]
  by_cases hcons : c.consumed = true
  · exact .inr ⟨_, by decide, if_pos hcons⟩
  rw [if_neg hcons]
  by_cases hexp : nowNs > c.expiresAt
  · exact .inr ⟨_, by decide, if_pos hexp⟩
  rw [if_neg hexp]
  by_cases hreg : publicInputs.registryId ≠ c.registryId
  · exact .inr ⟨_, by decide, if_pos hreg⟩
  rw [if_neg hreg]
  cases hroot : parseFe publicInputs.merkleRoot with
  | error e => exact .inr ⟨e, parseFe_error hroot, rfl⟩
  | ok root =>
  dsimp only
  by_cases hne : root ≠ c.merkleRoot
  · exact .inr ⟨_, by decide, if_pos hne⟩
  rw [if_neg hne]
  by_cases hpur : publicInputs.purpose ≠ c.purpose
  · exact .inr ⟨_, by decide, if_pos hpur⟩
  rw [if_neg hpur]
  by_cases hnon : publicInputs.requestNonce ≠ c.requestNonce
  · exact .inr ⟨_, by decide, if_pos hnon⟩
  rw [if_neg hnon]
  by_cases hts : publicInputs.currentTimestamp ≠ c.currentTimestamp
  · exact .inr ⟨_, by decide, if_pos hts⟩
  rw [if_neg hts]
  cases hnull : parseFe publicInputs.nullifier with
  | error e => exact .inr ⟨e, parseFe_error hnull, rfl⟩
  | ok v =>
  by_cases hspent : (s.nullifiers.lookup (feToString v)).getD false = true
  · exact .inr ⟨_, by decide, if_pos hspent⟩
  refine .inl ⟨c, v, hc, not_not.1 hreq, Bool.not_eq_true _ ▸ hcons, not_lt.1 hexp, not_not.1 hreg, ?_, not_not.1 hpur,
    not_not.1 hnon, not_not.1 hts, hnull, Bool.not_eq_true _ ▸ hspent⟩
  rw [hroot, not_not.1 hne]

end

theorem airPubInputs_of_passes {s : State} {caller : Principal} {nowNs : Int} {challengeId : UInt64}
    {publicInputs : VerifyPublicInputs} {c : Challenge} {v : BaseElement}
    (hp : Passes s caller nowNs challengeId publicInputs c v) :
    airPubInputs publicInputs = .ok ⟨fe c.registryId, c.merkleRoot, fe c.purpose, fe c.requestNonce,
      fe c.currentTimestamp, v⟩ := by
  unfold airPubInputs
  simp only [hp.merkleRoot, hp.nullifier, hp.registryId, hp.purpose, hp.requestNonce, hp.currentTimestamp]

/-! ## Pruning challenges -/

/-- A scan only moves the cursor and removes expired challenges. -/
theorem pruneChallenges_spec (nowNs : Int) : ∀ n s, ∃ challenges oldest,
    pruneChallenges nowNs n s = { s with challenges := challenges, oldestUnprunedChallengeId := oldest } ∧
      ∀ id, challenges.lookup id = s.challenges.lookup id ∨
        (challenges.lookup id = none ∧ ∃ c, s.challenges.lookup id = some c ∧ nowNs > c.expiresAt)
  | 0, s => ⟨_, _, rfl, fun _ => .inl rfl⟩
  | n + 1, s => by
    unfold pruneChallenges
    by_cases hend : s.oldestUnprunedChallengeId ≥ s.nextChallengeId
    · rw [if_pos hend]
      exact ⟨_, _, rfl, fun _ => .inl rfl⟩
    rw [if_neg hend]
    cases hc : s.challenges.lookup s.oldestUnprunedChallengeId with
    | none =>
      obtain ⟨challenges, oldest, h, hlook⟩ := pruneChallenges_spec nowNs n
        { s with oldestUnprunedChallengeId := s.oldestUnprunedChallengeId + 1 }
      simp only [hc]
      exact ⟨challenges, oldest, h, hlook⟩
    | some c =>
      simp only [hc]
      by_cases hexp : nowNs > c.expiresAt
      · rw [if_pos hexp]
        obtain ⟨challenges, oldest, h, hlook⟩ := pruneChallenges_spec nowNs n { s with
          challenges := s.challenges.erase s.oldestUnprunedChallengeId
          oldestUnprunedChallengeId := s.oldestUnprunedChallengeId + 1 }
        refine ⟨challenges, oldest, h, fun id => ?_⟩
        have hid := hlook id
        simp only [lookup_erase] at hid
        by_cases heq : id = s.oldestUnprunedChallengeId
        · rw [if_pos heq] at hid
          subst heq
          refine .inr ⟨?_, c, hc, hexp⟩
          rcases hid with h | ⟨h, -⟩ <;> exact h
        · rwa [if_neg heq] at hid
      · rw [if_neg hexp]
        exact ⟨_, _, rfl, fun _ => .inl rfl⟩

/-- A heartbeat leaves the admin list, the registry, the counters and the spent nullifiers alone. -/
theorem heartbeatImpl_spec (s : State) (nowNs : Int) :
    ∃ challenges oldest challengeStore verifyStore challengeLog verifyLog,
      heartbeatImpl s nowNs = { s with
        challenges := challenges
        oldestUnprunedChallengeId := oldest
        lastChallengeCallAt := challengeStore
        lastVerifyCallAt := verifyStore
        challengeThrottleLog := challengeLog
        verifyThrottleLog := verifyLog } ∧
      (∀ id, challenges.lookup id = s.challenges.lookup id ∨
        (challenges.lookup id = none ∧ ∃ c, s.challenges.lookup id = some c ∧ nowNs > c.expiresAt)) ∧
      ∀ p, verifyStore.lookup p = s.lastVerifyCallAt.lookup p ∨ verifyStore.lookup p = none := by
  obtain ⟨challenges, oldest, h, hlook⟩ := pruneChallenges_spec nowNs maxPrunePerHeartbeat s
  unfold heartbeatImpl
  rw [h]
  exact ⟨_, _, _, _, _, _, rfl, hlook, pruneThrottleLog_store nowNs _ _ _⟩

@[simp] theorem heartbeatImpl_nullifiers (s : State) (nowNs : Int) :
    (heartbeatImpl s nowNs).nullifiers = s.nullifiers := by
  obtain ⟨_, _, _, _, _, _, heq, -⟩ := heartbeatImpl_spec s nowNs
  rw [heq]

@[simp] theorem heartbeatImpl_leafIndexByProperty (s : State) (nowNs : Int) :
    (heartbeatImpl s nowNs).leafIndexByProperty = s.leafIndexByProperty := by
  obtain ⟨_, _, _, _, _, _, heq, -⟩ := heartbeatImpl_spec s nowNs
  rw [heq]

/-! ## Changes of the state -/

def Call.isVerify : Call → Bool
  | .verify _ _ _ => true
  | _ => false

/-- Calls that may change the admin list. -/
def Call.isAdmin : Call → Bool
  | .bootstrapAdmin _ _ => true
  | .addAdmin _ => true
  | .removeAdmin _ => true
  | _ => false

theorem Call.isVerify_of_isAdmin {c : Call} (h : c.isAdmin = true) : c.isVerify = false := by
  cases c with
  | verify _ _ _ => cases h
  | _ => rfl

/-- Replies that report no success of an update. -/
def Reply.isSilent : Reply → Bool
  | .done (.ok _) => false
  | .root (.ok _) => false
  | .challenge (.ok _) => false
  | .verified (.ok _) => false
  | _ => true

/-- The state after an accepted record. -/
def submit (s : State) (record : Record) (leaf : BaseElement) : State :=
  let s' := (assignIndex s record.propertyId).2
  insertLeaf { s' with records := s'.records.insert record.propertyId record } (assignIndex s record.propertyId).1 leaf

/-- The challenge issued to `caller` at `nowNs`. -/
def issued (s : State) (caller : Principal) (nowNs : Int) (purpose : UInt64) : Challenge where
  registryId := registryId
  merkleRoot := s.currentRoot
  purpose := purpose
  requestNonce := s.nextNonce
  currentTimestamp := UInt64.ofInt (nowNs.tdiv 1000000000)
  expiresAt := i64 (nowNs + challengeTtlNs)
  consumed := false
  requester := caller

def viewOf (id : UInt64) (c : Challenge) : ChallengeView :=
  ⟨id, c.registryId, feToString c.merkleRoot, c.purpose, c.requestNonce, c.currentTimestamp, c.expiresAt⟩

/-- The state after an accepted `request_challenge`. -/
def request (s : State) (caller : Principal) (nowNs : Int) (purpose : UInt64) : State :=
  { s with
    lastChallengeCallAt := s.lastChallengeCallAt.insert caller nowNs
    challengeThrottleLog := s.challengeThrottleLog ++ [(caller, nowNs)]
    nextChallengeId := s.nextChallengeId + 1
    nextNonce := s.nextNonce + 1
    challenges := s.challenges.insert s.nextChallengeId (issued s caller nowNs purpose) }

/-- The state after a `verify` call has passed its throttle. -/
def touch (s : State) (caller : Principal) (nowNs : Int) : State :=
  { s with
    lastVerifyCallAt := s.lastVerifyCallAt.insert caller nowNs
    verifyThrottleLog := s.verifyThrottleLog ++ [(caller, nowNs)] }

/-- The state after a proof for challenge `c` with nullifier `v` is accepted. -/
def accept (s : State) (caller : Principal) (nowNs : Int) (challengeId : UInt64) (c : Challenge) (v : BaseElement) :
    State :=
  { touch s caller nowNs with
    challenges := s.challenges.insert challengeId { c with consumed := true }
    nullifiers := s.nullifiers.insert (feToString v) true }

/-- Every change a step can make. -/
inductive Change (s : State) : Event → State → Prop
  | silent {w caller now c r} : c.isVerify = false → r.isSilent = true → Change s (.call w caller now c r) s
  | admins {w caller now c r} (admins : List Principal) :
      c.isAdmin = true → (∃ x, r = .done x) → Change s (.call w caller now c r) { s with admins := admins }
  | submitted {w caller now record leaf} : isAdmin s caller = true → leafHash record = .ok leaf →
      Change s (.call w caller now (.submitRecord record) (.root (.ok (feToString (submit s record leaf).currentRoot))))
        (submit s record leaf)
  | requested {w caller now purpose} : caller ≠ Principal.anonymous → ¬ Recent s.lastChallengeCallAt caller now.ns →
      Change s (.call w caller now (.requestChallenge purpose)
        (.challenge (.ok (viewOf s.nextChallengeId (issued s caller now.ns purpose)))))
        (request s caller now.ns purpose)
  | throttled {w caller now id proofBytes publicInputs e} : e ∈ throttleErrors →
      Change s (.call w caller now (.verify id proofBytes publicInputs) (.verified (.error e))) s
  | failed {w caller now id proofBytes publicInputs e} : caller ≠ Principal.anonymous → e ∉ throttleErrors →
      Change s (.call w caller now (.verify id proofBytes publicInputs) (.verified (.error e))) (touch s caller now.ns)
  | verified {w caller now id proofBytes publicInputs c v} : caller ≠ Principal.anonymous →
      Passes s caller now.ns id publicInputs c v →
      w proofBytes ⟨fe c.registryId, c.merkleRoot, fe c.purpose, fe c.requestNonce, fe c.currentTimestamp, v⟩ =
        .accepted →
      Change s (.call w caller now (.verify id proofBytes publicInputs) (.verified (.ok ⟨feToString v⟩)))
        (accept s caller now.ns id c v)
  | heartbeat {now} : Change s (.heartbeat now) (heartbeatImpl s now.ns)
  | upgraded {now} (challengeLog : List (Principal × Int)) (verifyLog : List (Principal × Int)) :
      Change s (.upgrade now) { s with
        zeroHashes := initZeroHashes
        currentRoot := (s.nodes.lookup (treeDepth, 0)).getD (initZeroHashes.getD treeDepth 0)
        challengeThrottleLog := challengeLog
        verifyThrottleLog := verifyLog }

theorem verifyPrecheckImpl_eq {s : State} {caller : Principal} {nowNs : Int} {id : UInt64}
    {publicInputs : VerifyPublicInputs}
    (h : checkAndUpdateThrottle s.lastVerifyCallAt s.verifyThrottleLog caller nowNs =
      (.ok (), s.lastVerifyCallAt.insert caller nowNs, s.verifyThrottleLog ++ [(caller, nowNs)])) :
    verifyPrecheckImpl s caller nowNs id publicInputs =
      (checkChallenge (touch s caller nowNs) caller nowNs id publicInputs, touch s caller nowNs) := by
  unfold verifyPrecheckImpl
  rw [h]
  rfl

/-- Past its throttle, `verify` runs its checks, the cryptographic phase and the commit in turn. -/
theorem verify_eq {w : Winterfell} {s : State} {caller : Principal} {nowNs : Int} {id : UInt64}
    {proofBytes : List UInt8} {publicInputs : VerifyPublicInputs}
    (h : checkAndUpdateThrottle s.lastVerifyCallAt s.verifyThrottleLog caller nowNs =
      (.ok (), s.lastVerifyCallAt.insert caller nowNs, s.verifyThrottleLog ++ [(caller, nowNs)])) :
    verify w s caller nowNs id proofBytes publicInputs =
      match checkChallenge (touch s caller nowNs) caller nowNs id publicInputs with
      | .error e => (.error e, touch s caller nowNs)
      | .ok () =>
        match verifyCryptoImpl w publicInputs proofBytes with
        | .error e => (.error e, touch s caller nowNs)
        | .ok () =>
          match canonicalNullifier publicInputs.nullifier with
          | .error e => (.error e, touch s caller nowNs)
          | .ok nullifierKey => verifyCommitImpl (touch s caller nowNs) id nullifierKey := by
  unfold verify
  rw [verifyPrecheckImpl_eq h]
  cases checkChallenge (touch s caller nowNs) caller nowNs id publicInputs <;> rfl

theorem verifyCryptoImpl_error {w : Winterfell} {proofBytes : List UInt8} {publicInputs : VerifyPublicInputs}
    {pubInputs : PublicInputs} {e : String} (hpub : airPubInputs publicInputs = .ok pubInputs)
    (h : verifyCryptoImpl w publicInputs proofBytes = .error e) : e ∉ throttleErrors := by
  unfold verifyCryptoImpl at h
  simp only [hpub] at h
  cases hv : w proofBytes pubInputs with
  | undecodable t =>
    simp only [hv] at h
    cases h
    exact not_throttleError (c := 'f') (by rw [String.toList_append]; rfl) (by decide) (by decide)
  | rejected t =>
    simp only [hv] at h
    cases h
    exact not_throttleError (c := 'i') (by rw [String.toList_append]; rfl) (by decide) (by decide)
  | panicked =>
    simp only [hv] at h
    cases h
    decide
  | accepted =>
    simp only [hv] at h
    cases h

theorem verifyCryptoImpl_ok {w : Winterfell} {proofBytes : List UInt8} {publicInputs : VerifyPublicInputs}
    {pubInputs : PublicInputs} (hpub : airPubInputs publicInputs = .ok pubInputs)
    (h : verifyCryptoImpl w publicInputs proofBytes = .ok ()) : w proofBytes pubInputs = .accepted := by
  unfold verifyCryptoImpl at h
  simp only [hpub] at h
  cases hv : w proofBytes pubInputs with
  | accepted => rfl
  | undecodable t => simp only [hv] at h; cases h
  | rejected t => simp only [hv] at h; cases h
  | panicked => simp only [hv] at h; cases h

/-- Past its throttle, a submission that passes the checks and whose proof is accepted is committed. -/
theorem verify_of_passes {w : Winterfell} {s : State} {caller : Principal} {nowNs : Int} {id : UInt64}
    {proofBytes : List UInt8} {publicInputs : VerifyPublicInputs} {c : Challenge} {v : BaseElement}
    (h : checkAndUpdateThrottle s.lastVerifyCallAt s.verifyThrottleLog caller nowNs =
      (.ok (), s.lastVerifyCallAt.insert caller nowNs, s.verifyThrottleLog ++ [(caller, nowNs)]))
    (hp : Passes (touch s caller nowNs) caller nowNs id publicInputs c v)
    (hw : verifyCryptoImpl w publicInputs proofBytes = .ok ()) :
    verify w s caller nowNs id proofBytes publicInputs = (.ok ⟨feToString v⟩, accept s caller nowNs id c v) := by
  have hcheck := checkChallenge_of_passes hp
  have hkey : canonicalNullifier publicInputs.nullifier = .ok (feToString v) :=
    canonicalNullifier_ok.2 ⟨v, hp.nullifier, rfl⟩
  have hcommit : verifyCommitImpl (touch s caller nowNs) id (feToString v) =
      (.ok ⟨feToString v⟩, accept s caller nowNs id c v) := by
    unfold verifyCommitImpl
    simp only [hp.unspent, Bool.false_eq_true, if_false, hp.stored]
    rfl
  rw [verify_eq h, hcheck, hw]
  simp only [hkey, hcommit]

theorem Passes.touch {s : State} {caller : Principal} {nowNs : Int} {id : UInt64} {publicInputs : VerifyPublicInputs}
    {c : Challenge} {v : BaseElement} (hp : Passes s caller nowNs id publicInputs c v) :
    Passes (touch s caller nowNs) caller nowNs id publicInputs c v :=
  ⟨hp.stored, hp.requester, hp.unconsumed, hp.inTime, hp.registryId, hp.merkleRoot, hp.purpose, hp.requestNonce,
    hp.currentTimestamp, hp.nullifier, hp.unspent⟩

/-- Past its throttle, `verify` fails with a text of its own or accepts the proof of a stored challenge. -/
theorem verify_cases {s : State} {caller : Principal} {nowNs : Int} (w : Winterfell) (id : UInt64)
    (proofBytes : List UInt8) (publicInputs : VerifyPublicInputs) (ha : caller ≠ Principal.anonymous)
    (hr : ¬ Recent s.lastVerifyCallAt caller nowNs) :
    (∃ e, e ∉ throttleErrors ∧ verify w s caller nowNs id proofBytes publicInputs = (.error e, touch s caller nowNs)) ∨
      ∃ c v, Passes s caller nowNs id publicInputs c v ∧
        w proofBytes ⟨fe c.registryId, c.merkleRoot, fe c.purpose, fe c.requestNonce, fe c.currentTimestamp, v⟩ =
          .accepted ∧
        verify w s caller nowNs id proofBytes publicInputs = (.ok ⟨feToString v⟩, accept s caller nowNs id c v) := by
  have h := checkAndUpdateThrottle_ok s.verifyThrottleLog ha hr
  obtain ⟨c, v, hp⟩ | ⟨e, he, hcheck⟩ := checkChallenge_cases (touch s caller nowNs) caller nowNs id publicInputs
  · have hpub := airPubInputs_of_passes hp
    cases hcrypto : verifyCryptoImpl w publicInputs proofBytes with
    | error e =>
      refine .inl ⟨e, verifyCryptoImpl_error hpub hcrypto, ?_⟩
      rw [verify_eq h, checkChallenge_of_passes hp, hcrypto]
    | ok u =>
      exact .inr ⟨c, v, ⟨hp.stored, hp.requester, hp.unconsumed, hp.inTime, hp.registryId, hp.merkleRoot, hp.purpose,
        hp.requestNonce, hp.currentTimestamp, hp.nullifier, hp.unspent⟩, verifyCryptoImpl_ok hpub hcrypto,
        verify_of_passes h hp hcrypto⟩
  · refine .inl ⟨e, he, ?_⟩
    rw [verify_eq h, hcheck]

/-- A `verify` call that its throttle refuses leaves the state. -/
theorem verify_throttled {s : State} {caller : Principal} {nowNs : Int} {e : String} {w : Winterfell} {id : UInt64}
    {proofBytes : List UInt8} {publicInputs : VerifyPublicInputs}
    (h : checkAndUpdateThrottle s.lastVerifyCallAt s.verifyThrottleLog caller nowNs =
      (.error e, s.lastVerifyCallAt, s.verifyThrottleLog)) :
    verify w s caller nowNs id proofBytes publicInputs = (.error e, s) := by
  unfold verify verifyPrecheckImpl
  rw [h]

theorem change_verify (s : State) (w : Winterfell) (caller : Principal) (now : Time) (id : UInt64)
    (proofBytes : List UInt8) (publicInputs : VerifyPublicInputs) :
    Change s (.call w caller now (.verify id proofBytes publicInputs)
        (.verified (verify w s caller now.ns id proofBytes publicInputs).1))
      (verify w s caller now.ns id proofBytes publicInputs).2 := by
  obtain ⟨e, he, h⟩ | ⟨hanon, hrec, -⟩ :=
    checkAndUpdateThrottle_cases s.lastVerifyCallAt s.verifyThrottleLog caller now.ns
  · rw [verify_throttled h]
    exact .throttled he
  obtain ⟨e, he, heq⟩ | ⟨c, v, hp, hw, heq⟩ := verify_cases w id proofBytes publicInputs hanon hrec
  · rw [heq]
    exact .failed hanon he
  · rw [heq]
    exact .verified hanon hp hw

/-- An admin's record is refused only if its commitment does not parse. -/
theorem submitRecordImpl_eq (s : State) (caller : Principal) (record : Record) :
    submitRecordImpl s caller record.propertyId record.ownerCommitment record.encumbranceFlag record.licenseStatus
        record.licenseExpiry =
      if isAdmin s caller = true then
        match leafHash record with
        | .error e => (.error e, s)
        | .ok leaf => (.ok (feToString (submit s record leaf).currentRoot), submit s record leaf)
      else (.error "unauthorized -- gate this behind real admin auth", s) := by
  unfold submitRecordImpl submit
  by_cases ha : isAdmin s caller = true
  · rw [if_pos ha]
    exact if_neg (not_not.2 ha)
  · rw [if_neg ha]
    exact if_pos ha

theorem change_submit (s : State) (w : Winterfell) (caller : Principal) (now : Time) (record : Record) :
    Change s (.call w caller now (.submitRecord record) (exec w s caller now.ns (.submitRecord record)).1)
      (exec w s caller now.ns (.submitRecord record)).2 := by
  have h := submitRecordImpl_eq s caller record
  simp only [exec, h]
  by_cases ha : isAdmin s caller = true
  · rw [if_pos ha]
    cases hleaf : leafHash record with
    | error e => exact .silent rfl rfl
    | ok leaf => exact .submitted ha hleaf
  · rw [if_neg ha]
    exact .silent rfl rfl

theorem requestChallengeImpl_ok {s : State} {caller : Principal} {nowNs : Int} (purpose : UInt64)
    (ha : caller ≠ Principal.anonymous) (hr : ¬ Recent s.lastChallengeCallAt caller nowNs) :
    requestChallengeImpl s caller nowNs purpose =
      (.ok (viewOf s.nextChallengeId (issued s caller nowNs purpose)), request s caller nowNs purpose) := by
  unfold requestChallengeImpl
  rw [checkAndUpdateThrottle_ok s.challengeThrottleLog ha hr]
  rfl

/-- A `request_challenge` call that its throttle refuses leaves the state. -/
theorem requestChallengeImpl_throttled {s : State} {caller : Principal} {nowNs : Int} {e : String} {purpose : UInt64}
    (h : checkAndUpdateThrottle s.lastChallengeCallAt s.challengeThrottleLog caller nowNs =
      (.error e, s.lastChallengeCallAt, s.challengeThrottleLog)) :
    requestChallengeImpl s caller nowNs purpose = (.error e, s) := by
  unfold requestChallengeImpl
  rw [h]

theorem change_request (s : State) (w : Winterfell) (caller : Principal) (now : Time) (purpose : UInt64) :
    Change s (.call w caller now (.requestChallenge purpose) (exec w s caller now.ns (.requestChallenge purpose)).1)
      (exec w s caller now.ns (.requestChallenge purpose)).2 := by
  simp only [exec]
  obtain ⟨e, -, h⟩ | ⟨hanon, hrec, -⟩ :=
    checkAndUpdateThrottle_cases s.lastChallengeCallAt s.challengeThrottleLog caller now.ns
  · rw [requestChallengeImpl_throttled h]
    exact .silent rfl rfl
  · rw [requestChallengeImpl_ok purpose hanon hrec]
    exact .requested hanon hrec

theorem bootstrapAdminImpl_cases (s : State) (callerIsController : Bool) (realAdmin : Principal) :
    (∃ e, bootstrapAdminImpl s callerIsController realAdmin = (.error e, s)) ∨
      ∃ admins, bootstrapAdminImpl s callerIsController realAdmin = (.ok (), { s with admins := admins }) := by
  unfold bootstrapAdminImpl
  split_ifs
  exacts [.inl ⟨_, rfl⟩, .inr ⟨_, rfl⟩, .inl ⟨_, rfl⟩]

theorem addAdminImpl_cases (s : State) (caller newAdmin : Principal) :
    (∃ e, addAdminImpl s caller newAdmin = (.error e, s)) ∨
      ∃ admins, addAdminImpl s caller newAdmin = (.ok (), { s with admins := admins }) := by
  unfold addAdminImpl
  split_ifs
  exacts [.inr ⟨s.admins, rfl⟩, .inr ⟨_, rfl⟩, .inl ⟨_, rfl⟩]

theorem removeAdminImpl_cases (s : State) (caller oldAdmin : Principal) :
    (∃ e, removeAdminImpl s caller oldAdmin = (.error e, s)) ∨
      ∃ admins, removeAdminImpl s caller oldAdmin = (.ok (), { s with admins := admins }) := by
  unfold removeAdminImpl
  split_ifs
  exacts [.inl ⟨_, rfl⟩, .inr ⟨_, rfl⟩, .inl ⟨_, rfl⟩]

/-- A call with a plain outcome either fails and changes nothing or sets the admin list. -/
theorem change_admin {s : State} {w : Winterfell} {caller : Principal} {now : Time} {c : Call}
    {out : Except String Unit × State} (hc : c.isAdmin = true)
    (h : (∃ e, out = (.error e, s)) ∨ ∃ admins, out = (.ok (), { s with admins := admins })) :
    Change s (.call w caller now c (.done out.1)) out.2 := by
  rcases h with ⟨e, rfl⟩ | ⟨admins, rfl⟩
  · exact .silent (Call.isVerify_of_isAdmin hc) rfl
  · exact .admins admins hc ⟨_, rfl⟩

/-- The reply of a call and the state it leaves are those of its execution. -/
theorem step_call {s s' : State} {w : Winterfell} {caller : Principal} {now : Time} {c : Call} {r : Reply}
    (h : Step s (.call w caller now c r) s') : exec w s caller now.ns c = (r, s') := by
  cases h with
  | call => rfl

theorem reply_at {tr : Trace} {s : State} (h : CanisterRun tr s) {i : ℕ} {τ : Transition State Event}
    (hi : tr[i]? = some τ) {w : Winterfell} {caller : Principal} {now : Time} {c : Call} {r : Reply}
    (hτ : τ.label = .call w caller now c r) : (exec w τ.pre caller now.ns c).1 = r := by
  obtain ⟨-, hst⟩ := h.before hi
  rw [hτ] at hst
  exact congrArg Prod.fst (step_call hst)

theorem step_heartbeat {s s' : State} {now : Time} (h : Step s (.heartbeat now) s') : s' = heartbeatImpl s now.ns := by
  cases h with
  | heartbeat => rfl

/-- From a state whose records sit under their own ids, every step is one of the changes. -/
theorem step_change {s s' : State} {e : Event} (hk : Keyed s) (h : Step s e s') : Change s e s' := by
  cases h with
  | call w caller now c =>
    cases c with
    | submitRecord record => exact change_submit s w caller now record
    | requestChallenge purpose => exact change_request s w caller now purpose
    | verify id proofBytes publicInputs => exact change_verify s w caller now id proofBytes publicInputs
    | bootstrapAdmin b p => exact change_admin rfl (bootstrapAdminImpl_cases s b p)
    | addAdmin p => exact change_admin rfl (addAdminImpl_cases s caller p)
    | removeAdmin p => exact change_admin rfl (removeAdminImpl_cases s caller p)
    | getRecord _ => exact .silent rfl rfl
    | getMerkleProof _ => exact .silent rfl rfl
    | health => exact .silent rfl rfl
  | heartbeat now => exact .heartbeat
  | upgrade now o challenge verify h =>
    rw [postUpgrade_preUpgrade hk] at h
    cases h
    exact .upgraded _ _
  | upgradeUndone now o h =>
    rw [postUpgrade_preUpgrade hk] at h
    cases h

/-- The state after an upgrade that rebuilt these logs. -/
def upgraded (s : State) (challengeLog verifyLog : List (Principal × Int)) : State :=
  { s with
    zeroHashes := initZeroHashes
    currentRoot := (s.nodes.lookup (treeDepth, 0)).getD (initZeroHashes.getD treeDepth 0)
    challengeThrottleLog := challengeLog
    verifyThrottleLog := verifyLog }

/-- An upgrade rebuilds the logs from the maps in some order, -/
theorem upgrade_step {s s' : State} {now : Time} (hk : Keyed s) (h : Step s (.upgrade now) s') :
    ∃ (challenge : Iteration s.lastChallengeCallAt) (verify : Iteration s.lastVerifyCallAt),
      s' = upgraded s challenge.entries verify.entries := by
  cases h with
  | upgrade _ o challenge verify h =>
    rw [postUpgrade_preUpgrade hk] at h
    cases h
    exact ⟨challenge, verify, rfl⟩
  | upgradeUndone _ o h =>
    rw [postUpgrade_preUpgrade hk] at h
    cases h

/-- and it may do so in any order. -/
theorem step_upgrade {s : State} (hk : Keyed s) (now : Time) (challenge : Iteration s.lastChallengeCallAt)
    (verify : Iteration s.lastVerifyCallAt) : Step s (.upgrade now) (upgraded s challenge.entries verify.entries) := by
  obtain ⟨o⟩ := exists_orders s
  exact .upgrade now o (by exact challenge) (by exact verify) (postUpgrade_preUpgrade hk o)

/-! ## The steps that succeed -/

theorem step_request {s : State} {caller : Principal} {now : Time} (w : Winterfell) (purpose : UInt64)
    (ha : caller ≠ Principal.anonymous) (hr : ¬ Recent s.lastChallengeCallAt caller now.ns) :
    Step s (.call w caller now (.requestChallenge purpose)
        (.challenge (.ok (viewOf s.nextChallengeId (issued s caller now.ns purpose)))))
      (request s caller now.ns purpose) := by
  have h := Step.call (s := s) w caller now (.requestChallenge purpose)
  simp only [exec, requestChallengeImpl_ok purpose ha hr] at h
  exact h

theorem verifyCryptoImpl_of_accepted {w : Winterfell} {publicInputs : VerifyPublicInputs} {pubInputs : PublicInputs}
    {proofBytes : List UInt8} (hpub : airPubInputs publicInputs = .ok pubInputs)
    (hw : w proofBytes pubInputs = .accepted) : verifyCryptoImpl w publicInputs proofBytes = .ok () := by
  unfold verifyCryptoImpl
  simp only [hpub, hw]

/-- A submission that passes the checks with an accepted proof is committed. -/
theorem verify_accepts {s : State} {caller : Principal} {nowNs : Int} {w : Winterfell} {id : UInt64}
    {proofBytes : List UInt8} {publicInputs : VerifyPublicInputs} {c : Challenge} {v : BaseElement}
    (ha : caller ≠ Principal.anonymous) (hr : ¬ Recent s.lastVerifyCallAt caller nowNs)
    (hp : Passes s caller nowNs id publicInputs c v)
    (hw : w proofBytes ⟨fe c.registryId, c.merkleRoot, fe c.purpose, fe c.requestNonce, fe c.currentTimestamp, v⟩ =
      .accepted) :
    verify w s caller nowNs id proofBytes publicInputs = (.ok ⟨feToString v⟩, accept s caller nowNs id c v) :=
  verify_of_passes (checkAndUpdateThrottle_ok s.verifyThrottleLog ha hr) hp.touch
    (verifyCryptoImpl_of_accepted (airPubInputs_of_passes hp) hw)

theorem step_verify {s : State} {caller : Principal} {now : Time} {w : Winterfell} {id : UInt64}
    {proofBytes : List UInt8} {publicInputs : VerifyPublicInputs} {c : Challenge} {v : BaseElement}
    (ha : caller ≠ Principal.anonymous) (hr : ¬ Recent s.lastVerifyCallAt caller now.ns)
    (hp : Passes s caller now.ns id publicInputs c v)
    (hw : w proofBytes ⟨fe c.registryId, c.merkleRoot, fe c.purpose, fe c.requestNonce, fe c.currentTimestamp, v⟩ =
      .accepted) :
    Step s (.call w caller now (.verify id proofBytes publicInputs) (.verified (.ok ⟨feToString v⟩)))
      (accept s caller now.ns id c v) := by
  have h := Step.call (s := s) w caller now (.verify id proofBytes publicInputs)
  simp only [exec, verify_accepts ha hr hp hw] at h
  exact h

/-- What an Ok `verify` met and did. -/
theorem verified_step {s s' : State} {e : Event} {w : Winterfell} {caller : Principal} {now : Time} {id : UInt64}
    {proofBytes : List UInt8} {publicInputs : VerifyPublicInputs} (hk : Keyed s) (hst : Step s e s')
    (hv : Verified e w caller now id proofBytes publicInputs) :
    ∃ c v, Passes s caller now.ns id publicInputs c v ∧
      w proofBytes ⟨fe c.registryId, c.merkleRoot, fe c.purpose, fe c.requestNonce, fe c.currentTimestamp, v⟩ =
        .accepted ∧
      s' = accept s caller now.ns id c v := by
  obtain ⟨ok, rfl⟩ := hv
  cases step_change hk hst with
  | silent hc => cases hc
  | admins _ hc => cases hc
  | verified _ hp hw => exact ⟨_, _, hp, hw, rfl⟩

/-- What a successful `request_challenge` returned and stored. -/
theorem requested_step {s s' : State} {e : Event} {caller : Principal} {now : Time} {purpose : UInt64}
    {view : ChallengeView} (hk : Keyed s) (hst : Step s e s') (hr : Requested e caller now purpose view) :
    view = viewOf s.nextChallengeId (issued s caller now.ns purpose) ∧ s' = request s caller now.ns purpose := by
  obtain ⟨w, rfl⟩ := hr
  cases step_change hk hst with
  | silent _ hr => cases hr
  | admins _ hc => cases hc
  | requested => exact ⟨rfl, rfl⟩

end Yaqeen.Canister
