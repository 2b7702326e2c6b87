/-
Calls that fail. Every error exit of the admin calls, of `submit_record` and of `request_challenge`
leaves the state as it was; every error exit of `verify` does too, or has moved the caller's own
throttle entry and nothing else, whichever of its phases fails.
-/
import Yaqeen.Canister.Changes

namespace Yaqeen.Canister

open Air FinMap

section

variable {s s' : State} {caller : Principal} {nowNs : Int} {e : String}

/-- A call that either fails in place or sets the admin list leaves the state alone when it fails. -/
theorem admin_error {out : Except String Unit × State}
    (hcases : (∃ e, out = (.error e, s)) ∨ ∃ admins, out = (.ok (), { s with admins := admins }))
    (h : out = (.error e, s')) : s' = s := by
  rcases hcases with ⟨_, rfl⟩ | ⟨_, rfl⟩
  · exact (Prod.ext_iff.1 h).2.symm
  · cases (Prod.ext_iff.1 h).1

theorem submitRecordImpl_error (record : Record)
    (h : submitRecordImpl s caller record.propertyId record.ownerCommitment record.encumbranceFlag
      record.licenseStatus record.licenseExpiry = (.error e, s')) : s' = s := by
  rw [submitRecordImpl_eq] at h
  split at h
  · split at h
    · exact (Prod.ext_iff.1 h).2.symm
    · cases (Prod.ext_iff.1 h).1
  · exact (Prod.ext_iff.1 h).2.symm

theorem requestChallengeImpl_error {purpose : UInt64}
    (h : requestChallengeImpl s caller nowNs purpose = (.error e, s')) : s' = s := by
  obtain ⟨_, -, hthrottle⟩ | ⟨hanon, hrec, -⟩ :=
    checkAndUpdateThrottle_cases s.lastChallengeCallAt s.challengeThrottleLog caller nowNs
  · rw [requestChallengeImpl_throttled hthrottle] at h
    exact (Prod.ext_iff.1 h).2.symm
  · rw [requestChallengeImpl_ok purpose hanon hrec] at h
    cases (Prod.ext_iff.1 h).1

theorem verifyCommitImpl_error {id : UInt64} {nullifier : String}
    (h : verifyCommitImpl s id nullifier = (.error e, s')) : s' = s := by
  unfold verifyCommitImpl at h
  split at h
  · exact (Prod.ext_iff.1 h).2.symm
  · cases (Prod.ext_iff.1 h).1

/-- A `verify` that fails past its throttle has recorded the call and changed nothing else. -/
theorem verify_error {w : Winterfell} {id : UInt64} {proofBytes : List UInt8} {publicInputs : VerifyPublicInputs}
    (ha : caller ≠ Principal.anonymous) (hr : ¬ Recent s.lastVerifyCallAt caller nowNs)
    (h : verify w s caller nowNs id proofBytes publicInputs = (.error e, s')) : s' = touch s caller nowNs := by
  rw [verify_eq (checkAndUpdateThrottle_ok s.verifyThrottleLog ha hr)] at h
  split at h
  · exact (Prod.ext_iff.1 h).2.symm
  · split at h
    · exact (Prod.ext_iff.1 h).2.symm
    · split at h
      · exact (Prod.ext_iff.1 h).2.symm
      · exact verifyCommitImpl_error h

end

/-- From any state, a call that returns `Err` leaves the whole state as it was; a `verify` that was not
throttled has set the caller's entry and appended it to the log, and left every other field as it was. -/
theorem failed_call_leaves_state (s : State) (caller : Principal) (nowNs : Int) :
    (∀ callerIsController realAdmin e s', bootstrapAdminImpl s callerIsController realAdmin = (.error e, s') → s' = s) ∧
    (∀ newAdmin e s', addAdminImpl s caller newAdmin = (.error e, s') → s' = s) ∧
    (∀ oldAdmin e s', removeAdminImpl s caller oldAdmin = (.error e, s') → s' = s) ∧
    (∀ propertyId ownerCommitment encumbranceFlag licenseStatus licenseExpiry e s',
      submitRecordImpl s caller propertyId ownerCommitment encumbranceFlag licenseStatus licenseExpiry =
        (.error e, s') → s' = s) ∧
    (∀ purpose e s', requestChallengeImpl s caller nowNs purpose = (.error e, s') → s' = s) ∧
    ∀ w challengeId proofBytes publicInputs e s',
      verify w s caller nowNs challengeId proofBytes publicInputs = (.error e, s') →
      ((caller = Principal.anonymous ∨ Recent s.lastVerifyCallAt caller nowNs) ∧ s' = s) ∨
      ((caller ≠ Principal.anonymous ∧ ¬ Recent s.lastVerifyCallAt caller nowNs) ∧ s' = { s with
        lastVerifyCallAt := s.lastVerifyCallAt.insert caller nowNs
        verifyThrottleLog := s.verifyThrottleLog ++ [(caller, nowNs)] }) := by
  refine ⟨fun b p e s' h => admin_error (bootstrapAdminImpl_cases s b p) h,
    fun p e s' h => admin_error (addAdminImpl_cases s caller p) h,
    fun p e s' h => admin_error (removeAdminImpl_cases s caller p) h,
    fun p oc f l x e s' h => submitRecordImpl_error ⟨p, oc, f, l, x⟩ h,
    fun purpose e s' h => requestChallengeImpl_error h, fun w id proofBytes publicInputs e s' h => ?_⟩
  by_cases ha : caller = Principal.anonymous
  · refine .inl ⟨.inl ha, ?_⟩
    rw [verify_throttled (checkAndUpdateThrottle_anonymous ha)] at h
    exact (Prod.ext_iff.1 h).2.symm
  by_cases hr : Recent s.lastVerifyCallAt caller nowNs
  · refine .inl ⟨.inr hr, ?_⟩
    rw [verify_throttled (checkAndUpdateThrottle_recent ha hr)] at h
    exact (Prod.ext_iff.1 h).2.symm
  · exact .inr ⟨⟨ha, hr⟩, verify_error ha hr h⟩

theorem failed_call_leaves_state_sample :
    ∃ e s', verify (fun _ _ => .panicked) freshState ⟨[2]⟩ 0 0 [] ⟨1, "0", 1, 0, 0, "7"⟩ = (.error e, s') ∧
      s'.challenges = freshState.challenges ∧ s'.nullifiers = freshState.nullifiers ∧
        s'.verifyThrottleLog = [(⟨[2]⟩, 0)] := by
  have hanon : (⟨[2]⟩ : Principal) ≠ Principal.anonymous := by decide
  have hrec : ¬ Recent freshState.lastVerifyCallAt ⟨[2]⟩ 0 := not_recent_of_none rfl
  obtain ⟨e, -, h⟩ | ⟨c, v, hp, -⟩ :=
    verify_cases (fun _ _ => .panicked) 0 [] ⟨1, "0", 1, 0, 0, "7"⟩ hanon hrec
  · obtain ⟨ha | hr, -⟩ | ⟨-, heq⟩ := (failed_call_leaves_state freshState ⟨[2]⟩ 0).2.2.2.2.2 _ _ _ _ e _ h
    · exact absurd ha hanon
    · exact absurd hr hrec
    · rw [heq] at h
      exact ⟨e, _, h, rfl, rfl, rfl⟩
  · -- the fresh state stores no challenge
    cases hp.stored

end Yaqeen.Canister
