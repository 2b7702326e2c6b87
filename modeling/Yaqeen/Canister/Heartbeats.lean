/-
Pruning is unobservable. Two runs with the same calls and upgrades at the same times, whatever heartbeats
are interleaved, stay equal but for challenges that have expired and throttle entries that are past their
retention, which one run has pruned and the other has not yet. No call can tell: it returns the same,
except for the text with which `verify` refuses an expired challenge.
-/
import Yaqeen.Canister.Throttle

namespace Yaqeen.Canister

open Air FinMap Runs LoggedMap

/-! ## States that differ by what pruning removes -/

/-- The state `s` with the prunable fields of `e`. -/
def graft (s e : State) : State :=
  { s with
    challenges := e.challenges
    oldestUnprunedChallengeId := e.oldestUnprunedChallengeId
    lastChallengeCallAt := e.lastChallengeCallAt
    lastVerifyCallAt := e.lastVerifyCallAt
    challengeThrottleLog := e.challengeThrottleLog
    verifyThrottleLog := e.verifyThrottleLog }

/-- A challenge that has expired before a time. -/
def DeadChallenge (t : Int) (c : Challenge) : Prop := c.expiresAt < t

/-- A throttle entry that is past its retention at a time. -/
def DeadCall (t : Int) (ts : Int) : Prop := 0 ≤ ts ∧ ts + throttleRetentionNs ≤ t

/-- At a time, two states agree but for what pruning may remove by then. -/
structure Similar (t : Int) (s₁ s₂ : State) : Prop where
  rest : s₂ = graft s₁ s₂
  challenges : AgreeUpTo (DeadChallenge t) s₁.challenges s₂.challenges
  calls : ∀ m : Method, AgreeUpTo (DeadCall t) (m.lastCallAt s₁) (m.lastCallAt s₂)

theorem Similar.mono {t t' : Int} {s₁ s₂ : State} (h : Similar t s₁ s₂) (ht : t ≤ t') : Similar t' s₁ s₂ :=
  ⟨h.rest, h.challenges.mono fun _ hc => lt_of_lt_of_le hc ht,
    fun m => (h.calls m).mono fun _ hc => ⟨hc.1, hc.2.trans ht⟩⟩

theorem Similar.graft {t : Int} {s₁ s₂ : State} (h : Similar t s₁ s₂) (e : State) : graft s₂ e = graft s₁ e := by
  rw [h.rest]
  rfl

/-- A heartbeat removes nothing but what is dead. -/
theorem heartbeat_removes {tr : Trace} {s : State} (h : CanisterRun tr s) {now : Time} {t : Int} (ht : now.ns ≤ t) :
    (∀ id, (heartbeatImpl s now.ns).challenges.lookup id = s.challenges.lookup id ∨
      ((heartbeatImpl s now.ns).challenges.lookup id = none ∧
        ∃ c, s.challenges.lookup id = some c ∧ DeadChallenge t c)) ∧
    ∀ (m : Method) (p : Principal), (m.lastCallAt (heartbeatImpl s now.ns)).lookup p = (m.lastCallAt s).lookup p ∨
      ((m.lastCallAt (heartbeatImpl s now.ns)).lookup p = none ∧
        ∃ ts, (m.lastCallAt s).lookup p = some ts ∧ DeadCall t ts) := by
  constructor
  · intro id
    obtain ⟨_, _, _, _, _, _, heq, hlook, -⟩ := heartbeatImpl_spec s now.ns
    rw [heq]
    refine (hlook id).imp_right ?_
    rintro ⟨hnone, c, hc, hexp⟩
    exact ⟨hnone, c, hc, lt_of_lt_of_le hexp ht⟩
  · intro m p
    obtain ⟨popped, hlog, hpruned⟩ := heartbeat_pops m s now
    refine (hpruned.lookup_cases p).imp_right ?_
    rintro ⟨hnone, ts, hts, hpop⟩
    have hstale := hpruned.popped_stale _ hpop
    obtain ⟨t', rfl⟩ : ∃ t' : Time, t'.ns = ts :=
      (ledger_run m h).time (hlog ▸ List.mem_append_left _ hpop)
    have := stale_iff.1 hstale
    exact ⟨hnone, t'.ns, hts, t'.nonneg, by omega⟩

theorem heartbeat_graft (s : State) (nowNs : Int) : heartbeatImpl s nowNs = graft s (heartbeatImpl s nowNs) := by
  obtain ⟨_, _, _, _, _, _, heq, -⟩ := heartbeatImpl_spec s nowNs
  rw [heq]
  rfl

/-- A heartbeat of one run leaves the states similar, -/
theorem Similar.heartbeat_left {tr : Trace} {s₁ s₂ : State} {t : Int} (h : Similar t s₁ s₂) (h₁ : CanisterRun tr s₁)
    {now : Time} (ht : now.ns ≤ t) : Similar t (heartbeatImpl s₁ now.ns) s₂ := by
  obtain ⟨hchallenges, hcalls⟩ := heartbeat_removes h₁ ht
  refine ⟨?_, h.challenges.lose hchallenges, fun m => (h.calls m).lose (hcalls m)⟩
  rw [heartbeat_graft]
  exact h.rest

/-- and so does one of the other. -/
theorem Similar.heartbeat_right {tr : Trace} {s₁ s₂ : State} {t : Int} (h : Similar t s₁ s₂) (h₂ : CanisterRun tr s₂)
    {now : Time} (ht : now.ns ≤ t) : Similar t s₁ (heartbeatImpl s₂ now.ns) := by
  obtain ⟨hchallenges, hcalls⟩ := heartbeat_removes h₂ ht
  refine ⟨?_, (h.challenges.symm.lose hchallenges).symm, fun m => ((h.calls m).symm.lose (hcalls m)).symm⟩
  rw [← h.graft]
  exact heartbeat_graft s₂ now.ns

/-! ## Calls that read nothing prunable -/

section

variable (s e : State)

@[simp] theorem graft_admins : (graft s e).admins = s.admins := rfl

@[simp] theorem graft_self : graft s s = s := rfl

theorem bootstrapAdminImpl_graft (b : Bool) (p : Principal) :
    bootstrapAdminImpl (graft s e) b p = ((bootstrapAdminImpl s b p).1, graft (bootstrapAdminImpl s b p).2 e) := by
  unfold bootstrapAdminImpl
  rw [graft_admins]
  split_ifs <;> rfl

theorem isAdmin_graft (p : Principal) : isAdmin (graft s e) p = isAdmin s p := rfl

theorem addAdminImpl_graft (caller p : Principal) :
    addAdminImpl (graft s e) caller p = ((addAdminImpl s caller p).1, graft (addAdminImpl s caller p).2 e) := by
  unfold addAdminImpl
  rw [graft_admins, isAdmin_graft]
  split_ifs <;> rfl

theorem removeAdminImpl_graft (caller p : Principal) :
    removeAdminImpl (graft s e) caller p = ((removeAdminImpl s caller p).1, graft (removeAdminImpl s caller p).2 e) := by
  unfold removeAdminImpl
  rw [graft_admins, isAdmin_graft]
  split_ifs <;> rfl

theorem insertLeafLoop_graft : ∀ n (s : State) level idx cur,
    insertLeafLoop n (graft s e) level idx cur =
      (graft (insertLeafLoop n s level idx cur).1 e, (insertLeafLoop n s level idx cur).2)
  | 0, _, _, _, _ => rfl
  | n + 1, s, level, idx, cur => by
    rw [insertLeafLoop_succ, insertLeafLoop_succ]
    exact insertLeafLoop_graft n (withNode s (level + 1) (idx / 2) _) (level + 1) (idx / 2) _

theorem insertLeaf_graft (index : ℕ) (leaf : BaseElement) :
    insertLeaf (graft s e) index leaf = graft (insertLeaf s index leaf) e := by
  have h := insertLeafLoop_graft e treeDepth (withNode s 0 index leaf) 0 index leaf
  have hw : ({ graft s e with nodes := (graft s e).nodes.insert (0, index) leaf } : State) =
    graft (withNode s 0 index leaf) e := rfl
  have hw' : ({ s with nodes := s.nodes.insert (0, index) leaf } : State) = withNode s 0 index leaf := rfl
  simp only [insertLeaf, hw, hw', h]
  rfl

theorem assignIndex_graft (p : UInt64) :
    assignIndex (graft s e) p = ((assignIndex s p).1, graft (assignIndex s p).2 e) := by
  obtain ⟨i, hi, h⟩ | ⟨hn, h⟩ := assignIndex_cases s p
  · rw [h, assignIndex_of_some (show (graft s e).leafIndexByProperty.lookup p = some i from hi)]
  · rw [h]
    unfold assignIndex
    simp only [show (graft s e).leafIndexByProperty.lookup p = none from hn]
    rfl

theorem submit_graft (record : Record) (leaf : BaseElement) :
    submit (graft s e) record leaf = graft (submit s record leaf) e := by
  unfold submit
  rw [assignIndex_graft]
  generalize assignIndex s record.propertyId = out
  exact insertLeaf_graft { out.2 with records := out.2.records.insert record.propertyId record } e out.1 leaf

theorem submitRecordImpl_graft (caller : Principal) (record : Record) :
    submitRecordImpl (graft s e) caller record.propertyId record.ownerCommitment record.encumbranceFlag
        record.licenseStatus record.licenseExpiry =
      ((submitRecordImpl s caller record.propertyId record.ownerCommitment record.encumbranceFlag
          record.licenseStatus record.licenseExpiry).1,
        graft (submitRecordImpl s caller record.propertyId record.ownerCommitment record.encumbranceFlag
          record.licenseStatus record.licenseExpiry).2 e) := by
  rw [submitRecordImpl_eq, submitRecordImpl_eq, isAdmin_graft]
  split_ifs
  · cases leafHash record with
    | error err => rfl
    | ok leaf =>
      simp only [submit_graft]
      rfl
  · rfl

theorem merkleProofLoop_graft : ∀ n level idx, merkleProofLoop (graft s e) n level idx = merkleProofLoop s n level idx
  | 0, _, _ => rfl
  | n + 1, level, idx => by
    unfold merkleProofLoop
    rw [merkleProofLoop_graft n]
    rfl

theorem getMerkleProofImpl_graft (p : UInt64) : getMerkleProofImpl (graft s e) p = getMerkleProofImpl s p := by
  unfold getMerkleProofImpl
  rw [show (graft s e).leafIndexByProperty = s.leafIndexByProperty from rfl]
  cases s.leafIndexByProperty.lookup p with
  | none => rfl
  | some index =>
    simp only [merkleProofLoop_graft]
    rfl

/-- Any other call than `request_challenge` and `verify` neither reads nor writes the prunable fields. -/
theorem exec_graft (w : Winterfell) (caller : Principal) (nowNs : Int) {c : Call} (hv : c.isVerify = false)
    (hr : ∀ purpose, c ≠ .requestChallenge purpose) :
    exec w (graft s e) caller nowNs c = ((exec w s caller nowNs c).1, graft (exec w s caller nowNs c).2 e) := by
  cases c with
  | verify => cases hv
  | requestChallenge purpose => exact absurd rfl (hr purpose)
  | bootstrapAdmin b p =>
    simp only [exec, bootstrapAdminImpl_graft]
  | addAdmin p => simp only [exec, addAdminImpl_graft]
  | removeAdmin p => simp only [exec, removeAdminImpl_graft]
  | submitRecord record => simp only [exec, submitRecordImpl_graft]
  | getRecord p => rfl
  | getMerkleProof p => simp only [exec, getMerkleProofImpl_graft]
  | health => rfl

end

/-! ## Calls that read what pruning may remove -/

/-- A call that passed a retention period ago does not throttle. -/
theorem recent_of_agree {store store' : HashMap Principal Int} {p : Principal} {now : Time}
    (h : AgreeUpTo (DeadCall now.ns) store store') (hr : Recent store p now.ns) : Recent store' p now.ns := by
  obtain ⟨last, hlast, hlt⟩ := hr
  refine ⟨last, h.alive hlast fun hdead => ?_, hlt⟩
  -- the retention period is longer than the interval
  obtain ⟨h0, hold⟩ := hdead
  have h1 := now.lt
  unfold throttleRetentionNs at hold
  unfold minCallIntervalNs at hlt
  rw [i64_of_range (by omega) (by omega)] at hlt
  omega

/-- Past its throttle, `verify` answers by the spent nullifiers and the challenge it names. -/
theorem verify_congr {s₁ s₂ : State} {caller : Principal} {nowNs : Int} {id : UInt64} (w : Winterfell)
    (proofBytes : List UInt8) (publicInputs : VerifyPublicInputs) (ha : caller ≠ Principal.anonymous)
    (hr₁ : ¬ Recent s₁.lastVerifyCallAt caller nowNs) (hr₂ : ¬ Recent s₂.lastVerifyCallAt caller nowNs)
    (hnull : s₁.nullifiers = s₂.nullifiers) (hlook : s₁.challenges.lookup id = s₂.challenges.lookup id) :
    (verify w s₁ caller nowNs id proofBytes publicInputs).1 = (verify w s₂ caller nowNs id proofBytes publicInputs).1 := by
  have hcheck : checkChallenge (touch s₁ caller nowNs) caller nowNs id publicInputs =
      checkChallenge (touch s₂ caller nowNs) caller nowNs id publicInputs := by
    unfold checkChallenge
    rw [show (touch s₁ caller nowNs).challenges.lookup id = (touch s₂ caller nowNs).challenges.lookup id from hlook,
      show (touch s₁ caller nowNs).nullifiers = (touch s₂ caller nowNs).nullifiers from hnull]
  have hcommit (key : String) : (verifyCommitImpl (touch s₁ caller nowNs) id key).1 =
      (verifyCommitImpl (touch s₂ caller nowNs) id key).1 := by
    unfold verifyCommitImpl
    rw [show (touch s₁ caller nowNs).nullifiers = (touch s₂ caller nowNs).nullifiers from hnull]
    split_ifs <;> rfl
  rw [verify_eq (checkAndUpdateThrottle_ok s₁.verifyThrottleLog ha hr₁),
    verify_eq (checkAndUpdateThrottle_ok s₂.verifyThrottleLog ha hr₂), hcheck]
  cases checkChallenge (touch s₂ caller nowNs) caller nowNs id publicInputs with
  | error e => rfl
  | ok u =>
    cases verifyCryptoImpl w publicInputs proofBytes with
    | error e => rfl
    | ok u =>
      cases canonicalNullifier publicInputs.nullifier with
      | error e => rfl
      | ok key => exact hcommit key

/-- What passes the checks in one state passes them in a similar one. -/
theorem Passes.of_agree {s s' : State} {caller : Principal} {nowNs : Int} {id : UInt64}
    {publicInputs : VerifyPublicInputs} {c : Challenge} {v : BaseElement}
    (hp : Passes s caller nowNs id publicInputs c v)
    (hagree : AgreeUpTo (DeadChallenge nowNs) s.challenges s'.challenges) (hnull : s.nullifiers = s'.nullifiers) :
    Passes s' caller nowNs id publicInputs c v :=
  { hp with
    stored := hagree.alive hp.stored (not_lt.2 hp.inTime)
    unspent := hnull ▸ hp.unspent }

section

variable {s₁ s₂ : State} {now : Time} (h : Similar now.ns s₁ s₂) (caller : Principal)

include h

theorem Similar.request (purpose : UInt64) :
    issued s₁ caller now.ns purpose = issued s₂ caller now.ns purpose ∧
      s₁.nextChallengeId = s₂.nextChallengeId ∧
      Similar now.ns (request s₁ caller now.ns purpose) (request s₂ caller now.ns purpose) := by
  obtain ⟨e, rfl⟩ : ∃ e, s₂ = Canister.graft s₁ e := ⟨_, h.rest⟩
  refine ⟨rfl, rfl, rfl, h.challenges.insert _ _, fun m => ?_⟩
  cases m with
  | requestChallenge => exact (h.calls .requestChallenge).insert _ _
  | verify => exact h.calls .verify

theorem Similar.touch : Similar now.ns (touch s₁ caller now.ns) (touch s₂ caller now.ns) := by
  obtain ⟨e, rfl⟩ : ∃ e, s₂ = Canister.graft s₁ e := ⟨_, h.rest⟩
  refine ⟨rfl, h.challenges, fun m => ?_⟩
  cases m with
  | requestChallenge => exact h.calls .requestChallenge
  | verify => exact (h.calls .verify).insert _ _

theorem Similar.accept (id : UInt64) (c : Challenge) (v : BaseElement) :
    Similar now.ns (accept s₁ caller now.ns id c v) (accept s₂ caller now.ns id c v) := by
  obtain ⟨e, rfl⟩ : ∃ e, s₂ = Canister.graft s₁ e := ⟨_, h.rest⟩
  refine ⟨rfl, h.challenges.insert _ _, fun m => ?_⟩
  cases m with
  | requestChallenge => exact h.calls .requestChallenge
  | verify => exact (h.calls .verify).insert _ _

/-- Either both runs answer alike, or both refuse a challenge that has expired. -/
theorem Similar.verify (w : Winterfell) (id : UInt64) (proofBytes : List UInt8) (publicInputs : VerifyPublicInputs) :
    ((Canister.verify w s₁ caller now.ns id proofBytes publicInputs).1 =
        (Canister.verify w s₂ caller now.ns id proofBytes publicInputs).1 ∨
      ∃ e₁ e₂ c, (Canister.verify w s₁ caller now.ns id proofBytes publicInputs).1 = .error e₁ ∧
        (Canister.verify w s₂ caller now.ns id proofBytes publicInputs).1 = .error e₂ ∧
        (s₁.challenges.lookup id = some c ∨ s₂.challenges.lookup id = some c) ∧ c.expiresAt < now.ns) ∧
    Similar now.ns (Canister.verify w s₁ caller now.ns id proofBytes publicInputs).2
      (Canister.verify w s₂ caller now.ns id proofBytes publicInputs).2 := by
  by_cases ha : caller = Principal.anonymous
  · rw [verify_throttled (checkAndUpdateThrottle_anonymous ha),
      verify_throttled (checkAndUpdateThrottle_anonymous ha)]
    exact ⟨.inl rfl, h⟩
  by_cases hr₁ : Recent s₁.lastVerifyCallAt caller now.ns
  · have hr₂ : Recent s₂.lastVerifyCallAt caller now.ns := recent_of_agree (h.calls .verify) hr₁
    rw [verify_throttled (checkAndUpdateThrottle_recent ha hr₁),
      verify_throttled (checkAndUpdateThrottle_recent ha hr₂)]
    exact ⟨.inl rfl, h⟩
  have hr₂ : ¬ Recent s₂.lastVerifyCallAt caller now.ns := fun hr => hr₁ (recent_of_agree (h.calls .verify).symm hr)
  have hnull : s₂.nullifiers = s₁.nullifiers := by
    rw [h.rest]
    rfl
  obtain ⟨e₁, -, heq₁⟩ | ⟨c, v, hp, hw, heq₁⟩ := verify_cases w id proofBytes publicInputs ha hr₁
  · obtain ⟨e₂, -, heq₂⟩ | ⟨c, v, hp, hw, -⟩ := verify_cases w id proofBytes publicInputs ha hr₂
    · refine ⟨?_, by rw [heq₁, heq₂]; exact h.touch caller⟩
      -- the states may differ at the challenge named, which has then expired
      rcases h.challenges id with hlook | ⟨c, hdead, hc⟩
      · exact .inl (verify_congr w proofBytes publicInputs ha hr₁ hr₂ hnull.symm hlook)
      · exact .inr ⟨e₁, e₂, c, by rw [heq₁], by rw [heq₂], hc.imp And.left And.right, hdead⟩
    · -- what passes in one state passes in the other
      rw [verify_accepts ha hr₁ (hp.of_agree h.challenges.symm hnull) hw] at heq₁
      cases heq₁
  · rw [heq₁, verify_accepts ha hr₂ (hp.of_agree h.challenges hnull.symm) hw]
    exact ⟨.inl rfl, h.accept caller id c v⟩

theorem Similar.requestChallenge (purpose : UInt64) :
    (requestChallengeImpl s₁ caller now.ns purpose).1 = (requestChallengeImpl s₂ caller now.ns purpose).1 ∧
    Similar now.ns (requestChallengeImpl s₁ caller now.ns purpose).2
      (requestChallengeImpl s₂ caller now.ns purpose).2 := by
  by_cases ha : caller = Principal.anonymous
  · rw [requestChallengeImpl_throttled (checkAndUpdateThrottle_anonymous ha),
      requestChallengeImpl_throttled (checkAndUpdateThrottle_anonymous ha)]
    exact ⟨rfl, h⟩
  by_cases hr₁ : Recent s₁.lastChallengeCallAt caller now.ns
  · have hr₂ : Recent s₂.lastChallengeCallAt caller now.ns := recent_of_agree (h.calls .requestChallenge) hr₁
    rw [requestChallengeImpl_throttled (checkAndUpdateThrottle_recent ha hr₁),
      requestChallengeImpl_throttled (checkAndUpdateThrottle_recent ha hr₂)]
    exact ⟨rfl, h⟩
  · have hr₂ : ¬ Recent s₂.lastChallengeCallAt caller now.ns := fun hr =>
      hr₁ (recent_of_agree (h.calls .requestChallenge).symm hr)
    obtain ⟨hissued, hid, hstate⟩ := h.request caller purpose
    rw [requestChallengeImpl_ok purpose ha hr₁, requestChallengeImpl_ok purpose ha hr₂, hissued, hid]
    exact ⟨rfl, hstate⟩

theorem Similar.quiet (w : Winterfell) {c : Call} (hv : c.isVerify = false)
    (hr : ∀ purpose, c ≠ .requestChallenge purpose) :
    (exec w s₁ caller now.ns c).1 = (exec w s₂ caller now.ns c).1 ∧
      Similar now.ns (exec w s₁ caller now.ns c).2 (exec w s₂ caller now.ns c).2 := by
  have h₁ := exec_graft s₁ s₁ w caller now.ns hv hr
  have h₂ := exec_graft s₁ s₂ w caller now.ns hv hr
  rw [graft_self] at h₁
  rw [← h.rest] at h₂
  rw [h₂]
  have hkept : (exec w s₁ caller now.ns c).2 = Canister.graft (exec w s₁ caller now.ns c).2 s₁ := congrArg Prod.snd h₁
  generalize (exec w s₁ caller now.ns c).2 = s at hkept ⊢
  refine ⟨rfl, rfl, ?_, fun m => ?_⟩
  · rw [hkept]
    exact h.challenges
  · rw [hkept]
    cases m with
    | requestChallenge => exact h.calls .requestChallenge
    | verify => exact h.calls .verify

/-- What a call returns and leaves in two similar states. -/
theorem Similar.call (w : Winterfell) (c : Call) :
    ((exec w s₁ caller now.ns c).1 = (exec w s₂ caller now.ns c).1 ∨
      ∃ id proofBytes publicInputs e₁ e₂ ch, c = .verify id proofBytes publicInputs ∧
        (exec w s₁ caller now.ns c).1 = .verified (.error e₁) ∧ (exec w s₂ caller now.ns c).1 = .verified (.error e₂) ∧
        (s₁.challenges.lookup id = some ch ∨ s₂.challenges.lookup id = some ch) ∧ ch.expiresAt < now.ns) ∧
    Similar now.ns (exec w s₁ caller now.ns c).2 (exec w s₂ caller now.ns c).2 := by
  have hquiet (hv : c.isVerify = false) (hr : ∀ purpose, c ≠ .requestChallenge purpose) := h.quiet caller w hv hr
  cases c with
  | verify id proofBytes publicInputs =>
    obtain ⟨hreply, hstate⟩ := h.verify caller w id proofBytes publicInputs
    refine ⟨hreply.imp (congrArg Reply.verified) ?_, hstate⟩
    rintro ⟨e₁, e₂, ch, h₁, h₂, hlook, hexp⟩
    exact ⟨id, proofBytes, publicInputs, e₁, e₂, ch, rfl, congrArg Reply.verified h₁, congrArg Reply.verified h₂, hlook,
      hexp⟩
  | requestChallenge purpose =>
    obtain ⟨hreply, hstate⟩ := h.requestChallenge caller purpose
    exact ⟨.inl (congrArg Reply.challenge hreply), hstate⟩
  | _ =>
    obtain ⟨hreply, hstate⟩ := hquiet rfl (fun _ h => by cases h)
    exact ⟨.inl hreply, hstate⟩

/-- An upgrade restores what both states hold. -/
theorem Similar.upgraded (challenge₁ verify₁ challenge₂ verify₂ : List (Principal × Int)) :
    Similar now.ns (upgraded s₁ challenge₁ verify₁) (upgraded s₂ challenge₂ verify₂) := by
  obtain ⟨e, rfl⟩ : ∃ e, s₂ = Canister.graft s₁ e := ⟨_, h.rest⟩
  refine ⟨rfl, h.challenges, fun m => ?_⟩
  cases m with
  | requestChallenge => exact h.calls .requestChallenge
  | verify => exact h.calls .verify

end

/-! ## Two runs -/

/-- What the environment gives the canister at an event other than a heartbeat. -/
inductive Input
  | call (winterfell : Winterfell) (caller : Principal) (now : Time) (c : Call)
  | upgrade (now : Time)

def Event.input : Event → Option Input
  | .call w caller now c _ => some (.call w caller now c)
  | .heartbeat _ => none
  | .upgrade now => some (.upgrade now)

/-- The admin list, the records, the tree, the nullifiers and the counters of ids and nonces agree. -/
structure Agree (s₁ s₂ : State) : Prop where
  admins : s₁.admins = s₂.admins
  records : s₁.records = s₂.records
  leafIndexByProperty : s₁.leafIndexByProperty = s₂.leafIndexByProperty
  zeroHashes : s₁.zeroHashes = s₂.zeroHashes
  nodes : s₁.nodes = s₂.nodes
  currentRoot : s₁.currentRoot = s₂.currentRoot
  nextLeafIndex : s₁.nextLeafIndex = s₂.nextLeafIndex
  nullifiers : s₁.nullifiers = s₂.nullifiers
  nextChallengeId : s₁.nextChallengeId = s₂.nextChallengeId
  nextNonce : s₁.nextNonce = s₂.nextNonce

theorem Similar.agree {t : Int} {s₁ s₂ : State} (h : Similar t s₁ s₂) : Agree s₁ s₂ := by
  obtain ⟨e, rfl⟩ : ∃ e, s₂ = Canister.graft s₁ e := ⟨_, h.rest⟩
  exact ⟨rfl, rfl, rfl, rfl, rfl, rfl, rfl, rfl, rfl, rfl⟩

/-- One `verify` call that both runs refuse, on a challenge that has expired and that one of them stores. -/
def RefusedExpired (τ₁ τ₂ : Transition State Event) : Prop :=
  ∃ w caller now id proofBytes publicInputs e₁ e₂ c,
    τ₁.label = .call w caller now (.verify id proofBytes publicInputs) (.verified (.error e₁)) ∧
    τ₂.label = .call w caller now (.verify id proofBytes publicInputs) (.verified (.error e₂)) ∧
    (τ₁.pre.challenges.lookup id = some c ∨ τ₂.pre.challenges.lookup id = some c) ∧ c.expiresAt < now.ns

/-- A call, or an upgrade, in two runs: the same with the same reply, but for the text with which `verify`
refuses an expired challenge, and agreement after it. -/
structure Matches (τ₁ τ₂ : Transition State Event) : Prop where
  reply : τ₁.label = τ₂.label ∨ RefusedExpired τ₁ τ₂
  agree : Agree τ₁.post τ₂.post

/-- The transitions of a trace other than heartbeats. -/
def observable (tr : Trace) : Trace := tr.filter fun τ => !τ.label.isHeartbeat

theorem heartbeat_of_input {e : Event} (h : e.input = none) : ∃ now, e = .heartbeat now := by
  cases e with
  | heartbeat now => exact ⟨now, rfl⟩
  | call => cases h
  | upgrade => cases h

theorem observable_heartbeat {tr : Trace} {τ : Transition State Event} (h : τ.label.input = none) :
    observable (tr ++ [τ]) = observable tr := by
  obtain ⟨now, hτ⟩ := heartbeat_of_input h
  unfold observable
  rw [List.filter_append]
  simp [hτ, Event.isHeartbeat]

theorem observable_input {tr : Trace} {τ : Transition State Event} {i : Input} (h : τ.label.input = some i) :
    observable (tr ++ [τ]) = observable tr ++ [τ] := by
  unfold observable
  rw [List.filter_append]
  cases hτ : τ.label with
  | heartbeat =>
    rw [hτ] at h
    cases h
  | call => simp [hτ, Event.isHeartbeat]
  | upgrade => simp [hτ, Event.isHeartbeat]

theorem call_of_input {e : Event} {w : Winterfell} {caller : Principal} {now : Time} {c : Call}
    (h : e.input = some (.call w caller now c)) : ∃ r, e = .call w caller now c r := by
  cases e with
  | call w' caller' now' c' r =>
    injection h with h
    injection h with hw hcaller hnow hc
    exact ⟨r, by rw [hw, hcaller, hnow, hc]⟩
  | heartbeat => cases h
  | upgrade => cases h

theorem upgrade_of_input {e : Event} {now : Time} (h : e.input = some (.upgrade now)) : e = .upgrade now := by
  cases e with
  | upgrade now' =>
    injection h with h
    injection h with hnow
    rw [hnow]
  | heartbeat => cases h
  | call => cases h

/-- Two steps on the same input happen at the same time, match, and lead to similar states. -/
theorem matched_step {s₁ s₂ s₁' s₂' : State} {e₁ e₂ : Event} {i : Input} (hk₁ : Keyed s₁) (hk₂ : Keyed s₂)
    (hst₁ : Step s₁ e₁ s₁') (hst₂ : Step s₂ e₂ s₂') (hi₁ : e₁.input = some i) (hi₂ : e₂.input = some i) :
    e₂.time = e₁.time ∧ (Similar e₁.time s₁ s₂ →
      Matches ⟨s₁, e₁, s₁'⟩ ⟨s₂, e₂, s₂'⟩ ∧ Similar e₁.time s₁' s₂') := by
  cases i with
  | call w caller now c =>
    obtain ⟨r₁, rfl⟩ := call_of_input hi₁
    obtain ⟨r₂, rfl⟩ := call_of_input hi₂
    refine ⟨rfl, fun h => ?_⟩
    have h₁ := step_call hst₁
    have h₂ := step_call hst₂
    obtain ⟨hreply, hstate⟩ := Similar.call (show Similar now.ns s₁ s₂ from h) caller w c
    rw [h₁, h₂] at hreply hstate
    refine ⟨⟨?_, hstate.agree⟩, hstate⟩
    rcases hreply with hreply | ⟨id, proofBytes, publicInputs, err₁, err₂, ch, hc, hr₁, hr₂, hlook, hexp⟩
    · exact .inl (congrArg (Event.call w caller now c) hreply)
    · refine .inr ⟨w, caller, now, id, proofBytes, publicInputs, err₁, err₂, ch, ?_, ?_, hlook, hexp⟩
      · rw [← hc, ← hr₁]
      · rw [← hc, ← hr₂]
  | upgrade now =>
    obtain rfl := upgrade_of_input hi₁
    obtain rfl := upgrade_of_input hi₂
    refine ⟨rfl, fun h => ?_⟩
    obtain ⟨challenge₁, verify₁, rfl⟩ := upgrade_step hk₁ hst₁
    obtain ⟨challenge₂, verify₂, rfl⟩ := upgrade_step hk₂ hst₂
    have hstate := Similar.upgraded (show Similar now.ns s₁ s₂ from h) challenge₁.entries verify₁.entries
      challenge₂.entries verify₂.entries
    exact ⟨⟨.inl rfl, hstate.agree⟩, hstate⟩

/-- While both clocks run forward, the states are similar from the last of their times on, and what both runs
did so far matches. -/
def Lockstep (tr₁ : Trace) (s₁ : State) (tr₂ : Trace) (s₂ : State) : Prop :=
  Clock tr₁ → Clock tr₂ →
    (∀ t, (∀ τ ∈ tr₁, τ.label.time ≤ t) → (∀ τ ∈ tr₂, τ.label.time ≤ t) → Similar t s₁ s₂) ∧
      List.Forall₂ Matches (observable tr₁) (observable tr₂)

theorem lockstep_run {tr₁ tr₂ : Trace} {s₁ s₂ : State} (h₁ : CanisterRun tr₁ s₁) (h₂ : CanisterRun tr₂ s₂)
    (hinputs : Run.observed Event.input tr₁ = Run.observed Event.input tr₂) : Lockstep tr₁ s₁ tr₂ s₂ := by
  refine h₁.lockstep h₂ hinputs ?_ ?_ ?_ ?_
  · intro _ _
    exact ⟨fun t _ _ => ⟨rfl, .refl _, fun _ => .refl _⟩, .nil⟩
  · intro tr₁ s₁ tr₂ s₂ e s' hr₁ hr₂ ih hst he hclock₁ hclock₂
    obtain ⟨hsim, hmatch⟩ := ih hclock₁.snoc.1 hclock₂
    refine ⟨fun t ht₁ ht₂ => ?_, by rwa [observable_heartbeat he]⟩
    obtain ⟨now, rfl⟩ := heartbeat_of_input he
    rw [step_heartbeat hst]
    exact (hsim t (fun τ hτ => ht₁ τ (List.mem_append_left _ hτ)) ht₂).heartbeat_left hr₁
      (ht₁ _ (List.mem_append_right _ List.mem_cons_self))
  · intro tr₁ s₁ tr₂ s₂ e s' hr₁ hr₂ ih hst he hclock₁ hclock₂
    obtain ⟨hsim, hmatch⟩ := ih hclock₁ hclock₂.snoc.1
    refine ⟨fun t ht₁ ht₂ => ?_, by rwa [observable_heartbeat he]⟩
    obtain ⟨now, rfl⟩ := heartbeat_of_input he
    rw [step_heartbeat hst]
    exact (hsim t ht₁ fun τ hτ => ht₂ τ (List.mem_append_left _ hτ)).heartbeat_right hr₂
      (ht₂ _ (List.mem_append_right _ List.mem_cons_self))
  · intro tr₁ s₁ tr₂ s₂ e₁ s₁' e₂ s₂' i hr₁ hr₂ ih hst₁ hst₂ he₁ he₂ hclock₁ hclock₂
    obtain ⟨hclock₁, hle₁⟩ := hclock₁.snoc
    obtain ⟨hclock₂, hle₂⟩ := hclock₂.snoc
    obtain ⟨hsim, hmatch⟩ := ih hclock₁ hclock₂
    -- both steps happen at one time, from which on the states before them are similar
    obtain ⟨htime, hstep⟩ := matched_step (treeInv_reachable hr₁).keyed (treeInv_reachable hr₂).keyed hst₁ hst₂ he₁ he₂
    obtain ⟨hlast, hsim⟩ := hstep (hsim _ hle₁ fun τ hτ => htime ▸ hle₂ τ hτ)
    refine ⟨fun t ht₁ _ => hsim.mono (ht₁ _ (List.mem_append_right _ List.mem_cons_self)), ?_⟩
    rw [observable_input he₁, observable_input he₂]
    exact List.rel_append hmatch (.cons hlast .nil)

/-- Two runs with the same calls and upgrades, whose clocks never run backwards, answer every call alike but
for the text with which `verify` refuses an expired challenge, and agree after each of them, whatever
heartbeats either has made. -/
theorem heartbeats_unobservable {tr₁ tr₂ : Trace} {s₁ s₂ : State} (h₁ : CanisterRun tr₁ s₁) (h₂ : CanisterRun tr₂ s₂)
    (hclock₁ : Clock tr₁) (hclock₂ : Clock tr₂)
    (hinputs : Run.observed Event.input tr₁ = Run.observed Event.input tr₂) :
    List.Forall₂ Matches (observable tr₁) (observable tr₂) :=
  (lockstep_run h₁ h₂ hinputs hclock₁ hclock₂).2

/-- A tick that forgets the owner's request is not noticed by the registrar's. -/
theorem heartbeats_unobservable_sample : ∃ tr₁ tr₂ s₁ s₂, CanisterRun tr₁ s₁ ∧ CanisterRun tr₂ s₂ ∧ tr₁.length = 2 ∧
    tr₂.length = 3 ∧ List.Forall₂ Matches (observable tr₁) (observable tr₂) := by
  have hfree : (request freshState owner 0 1).lastChallengeCallAt.lookup registrar = none := rfl
  have hforgotten : (heartbeatImpl (request freshState owner 0 1) timeHour.ns).lastChallengeCallAt.lookup registrar =
      none := by
    obtain hsame | ⟨hnone, -⟩ := (heartbeat_removes requested_run (le_refl timeHour.ns)).2 .requestChallenge registrar
    · exact hsame.trans hfree
    · exact hnone
  have hnext {s : State} (h : s.lastChallengeCallAt.lookup registrar = none) :
      Step s (.call rejectAll registrar timeHour (.requestChallenge 1)
        (.challenge (.ok (viewOf s.nextChallengeId (issued s registrar timeHour.ns 1)))))
        (request s registrar timeHour.ns 1) :=
    step_request rejectAll 1 (by decide) (not_recent_of_none h)
  have hle : (0 : Int) ≤ timeHour.ns := timeHour.nonneg
  have h₁ := requested_run.snoc (hnext hfree)
  have h₂ := (requested_run.snoc (.heartbeat timeHour)).snoc (hnext hforgotten)
  refine ⟨_, _, _, _, h₁, h₂, rfl, rfl, heartbeats_unobservable h₁ h₂ (List.pairwise_pair.2 hle) ?_ rfl⟩
  refine .cons (fun τ hτ => ?_) (List.pairwise_pair.2 le_rfl)
  rcases List.mem_cons.1 hτ with rfl | hτ
  · exact hle
  · rw [List.mem_singleton.1 hτ]
    exact hle

end Yaqeen.Canister
