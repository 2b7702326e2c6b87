/-
Exact rate limiting: a call is refused as too early exactly when its caller's own last calls of the same
method include one less than the minimal interval ago, whatever others did, and however often the
throttle was pruned or restored in between.
-/
import Yaqeen.Canister.Throttle

namespace Yaqeen.Canister

open FinMap Runs LoggedMap

/-- Some call of `p` that passed the throttle of the method was made less than the minimal interval ago. -/
def Method.RecentlyPassed (m : Method) (tr : Trace) (p : Principal) (now : Time) : Prop :=
  ∃ τ ∈ tr, ∃ t : Time, m.Passed τ.label p t ∧ now.ns - t.ns < minCallIntervalNs

/-! ## What the throttle remembers -/

/-- Each call that passed has an entry as recent as it, or something happened a retention period later. -/
def Remembered (m : Method) (tr : Trace) (s : State) : Prop :=
  ∀ τ ∈ tr, ∀ (p : Principal) (t : Time), m.Passed τ.label p t →
    (∃ last, (m.lastCallAt s).lookup p = some last ∧ t.ns ≤ last) ∨
      ∃ τ' ∈ tr, t.ns + throttleRetentionNs ≤ τ'.label.time

section

variable {m : Method} {tr : Trace} {s s' : State} {e : Event}

theorem Remembered.step (h : Remembered m tr s) (hledger : Ledger m tr s) (hclock : ∀ τ ∈ tr, τ.label.time ≤ e.time)
    (hst : ThrottleStep m s e s') : Remembered m (tr ++ [⟨s, e, s'⟩]) s' := by
  have hlast : (⟨s, e, s'⟩ : Transition State Event) ∈ tr ++ [⟨s, e, s'⟩] := List.mem_append_right _ List.mem_cons_self
  intro τ hτ p t hp
  rcases List.mem_append.1 hτ with hτ | hτ
  · obtain ⟨last, hl, hle⟩ | ⟨τ', hτ', hlate⟩ := h τ hτ p t hp
    · cases hst with
      | @passed q t' hq hstore _ =>
        rw [hstore]
        by_cases hpq : p = q
        · -- the caller's own later call replaces the entry
          have := hclock τ hτ
          rw [hp.time, hq.time] at this
          exact .inl ⟨t'.ns, by rw [lookup_insert, if_pos hpq], this⟩
        · exact .inl ⟨last, by rw [lookup_insert, if_neg hpq, hl], hle⟩
      | idle _ _ hstore _ => exact .inl ⟨last, by rw [hstore, hl], hle⟩
      | @pruned now popped heq _ hpruned =>
        by_cases hpop : (p, last) ∈ popped
        · -- the tick that forgets the call comes a retention period after it
          have hstale := hpruned.popped_stale _ hpop
          obtain ⟨t', rfl⟩ : ∃ t' : Time, t'.ns = last := hledger.time (hledger.covered p last hl)
          have := stale_iff.1 hstale
          refine .inr ⟨_, hlast, ?_⟩
          rw [heq]
          show t.ns + throttleRetentionNs ≤ now.ns
          omega
        · exact .inl ⟨last, (hpruned.lookup p last).2 ⟨hl, hpop⟩, hle⟩
      | restored _ _ hstore _ => exact .inl ⟨last, by rw [hstore, hl], hle⟩
    · exact .inr ⟨τ', List.mem_append_left _ hτ', hlate⟩
  · rw [List.mem_singleton.1 hτ] at hp
    cases hst with
    | @passed q t' hq hstore _ =>
      obtain ⟨rfl, rfl⟩ := hp.unique hq
      exact .inl ⟨t.ns, by rw [hstore, lookup_insert, if_pos rfl], le_rfl⟩
    | idle hno => exact absurd hp (hno p t)
    | pruned heq =>
      subst heq
      exact absurd hp (m.not_passed_heartbeat _ p t)
    | restored _ heq =>
      subst heq
      exact absurd hp (m.not_passed_upgrade _ p t)

theorem remembered_run (m : Method) (h : CanisterRun tr s) (hclock : Clock tr) : Remembered m tr s := by
  refine h.invariant_history (P := fun tr s => Clock tr → Remembered m tr s) (fun _ τ hτ => by cases hτ) ?_ hclock
  intro tr s e s' hr ih hst hclock
  exact (ih hclock.snoc.1).step (ledger_run m hr) hclock.snoc.2 (throttle_step m (treeInv_reachable hr).keyed hst)

/-- The map decides as the history of the run does. -/
theorem recent_iff (m : Method) (h : CanisterRun tr s) (hclock : Clock tr) {p : Principal} {now : Time}
    (hnow : ∀ τ ∈ tr, τ.label.time ≤ now.ns) : Recent (m.lastCallAt s) p now.ns ↔ m.RecentlyPassed tr p now := by
  have hsub (t : Time) : i64 (now.ns - t.ns) = now.ns - t.ns := by
    have h0 := now.nonneg
    have h1 := now.lt
    have h2 := t.nonneg
    have h3 := t.lt
    exact i64_of_range (by omega) (by omega)
  have hledger := ledger_run m h
  constructor
  · rintro ⟨last, hl, hlt⟩
    obtain ⟨τ, hτ, t, hp, ht⟩ := hledger.passed _ (hledger.covered p last hl)
    rw [← show t.ns = last from ht, hsub] at hlt
    exact ⟨τ, hτ, t, hp, hlt⟩
  · rintro ⟨τ, hτ, t, hp, hlt⟩
    obtain ⟨last, hl, hle⟩ | ⟨τ', hτ', hlate⟩ := remembered_run m h hclock τ hτ p t hp
    · obtain ⟨t', rfl⟩ : ∃ t' : Time, t'.ns = last := hledger.time (hledger.covered p last hl)
      refine ⟨t'.ns, hl, ?_⟩
      rw [hsub]
      omega
    · -- the retention period is longer than the interval
      have := hnow τ' hτ'
      unfold throttleRetentionNs at hlate
      unfold minCallIntervalNs at hlt
      omega

end

/-! ## What the throttle decides -/

section

variable {s : State} {p : Principal} {nowNs : Int}

theorem requestChallengeImpl_error_iff (purpose : UInt64) (ha : p ≠ Principal.anonymous) :
    (∃ e, (requestChallengeImpl s p nowNs purpose).1 = .error e) ↔ Recent s.lastChallengeCallAt p nowNs := by
  by_cases hr : Recent s.lastChallengeCallAt p nowNs
  · rw [requestChallengeImpl_throttled (checkAndUpdateThrottle_recent ha hr)]
    exact ⟨fun _ => hr, fun _ => ⟨_, rfl⟩⟩
  · rw [requestChallengeImpl_ok purpose ha hr]
    refine ⟨?_, fun h => absurd h hr⟩
    rintro ⟨e, h⟩
    cases h

theorem verify_limited_iff (w : Winterfell) (id : UInt64) (proofBytes : List UInt8) (publicInputs : VerifyPublicInputs)
    (ha : p ≠ Principal.anonymous) :
    (verify w s p nowNs id proofBytes publicInputs).1 = .error "rate limit: try again shortly" ↔
      Recent s.lastVerifyCallAt p nowNs := by
  by_cases hr : Recent s.lastVerifyCallAt p nowNs
  · rw [verify_throttled (checkAndUpdateThrottle_recent ha hr)]
    exact ⟨fun _ => hr, fun _ => rfl⟩
  · refine ⟨fun h => ?_, fun h => absurd h hr⟩
    obtain ⟨e, he, heq⟩ | ⟨c, v, -, -, heq⟩ := verify_cases w id proofBytes publicInputs ha hr
    · rw [heq] at h
      cases h
      exact absurd (List.mem_cons_of_mem _ List.mem_cons_self) he
    · rw [heq] at h
      cases h

end

/-- What a trace says about its throttled calls. -/
structure RateLimited (tr : Trace) : Prop where
  request : ∀ (i : ℕ) (τ : Transition State Event), tr[i]? = some τ → ∀ w p now purpose r,
    τ.label = .call w p now (.requestChallenge purpose) (.challenge r) → p ≠ Principal.anonymous →
      ((∃ e, r = .error e) ↔ Method.requestChallenge.RecentlyPassed (tr.take i) p now)
  verify : ∀ (i : ℕ) (τ : Transition State Event), tr[i]? = some τ → ∀ w p now id proofBytes publicInputs r,
    τ.label = .call w p now (.verify id proofBytes publicInputs) (.verified r) → p ≠ Principal.anonymous →
      (r = .error "rate limit: try again shortly" ↔ Method.verify.RecentlyPassed (tr.take i) p now)
  anonymousRequest : ∀ τ ∈ tr, ∀ w now purpose r,
    τ.label = .call w Principal.anonymous now (.requestChallenge purpose) (.challenge r) →
      r = .error "anonymous callers are not permitted"
  anonymousVerify : ∀ τ ∈ tr, ∀ w now id proofBytes publicInputs r,
    τ.label = .call w Principal.anonymous now (.verify id proofBytes publicInputs) (.verified r) →
      r = .error "anonymous callers are not permitted"

/-- In every run whose clock never runs backwards, with any interleaving of callers, ticks and upgrades, the
throttle decides by the caller's own recent calls of the same method alone. -/
theorem rate_limit_exact {tr : Trace} {s : State} (h : CanisterRun tr s) (hclock : Clock tr) : RateLimited tr where
  request i τ hi w p now purpose r hτ ha := by
    have hr : (requestChallengeImpl τ.pre p now.ns purpose).1 = r := Reply.challenge.inj (reply_at h hi hτ)
    rw [← hr, requestChallengeImpl_error_iff purpose ha]
    refine recent_iff .requestChallenge (h.before hi).1 (hclock.sublist (List.take_sublist i tr)) fun τ' hτ' => ?_
    have := hclock.take_le hi τ' hτ'
    rwa [hτ] at this
  verify i τ hi w p now id proofBytes publicInputs r hτ ha := by
    have hr : (verify w τ.pre p now.ns id proofBytes publicInputs).1 = r := Reply.verified.inj (reply_at h hi hτ)
    rw [← hr, verify_limited_iff w id proofBytes publicInputs ha]
    refine recent_iff .verify (h.before hi).1 (hclock.sublist (List.take_sublist i tr)) fun τ' hτ' => ?_
    have := hclock.take_le hi τ' hτ'
    rwa [hτ] at this
  anonymousRequest τ hτ w now purpose r hlabel := by
    obtain ⟨i, hi⟩ := List.getElem?_of_mem hτ
    have hr : (requestChallengeImpl τ.pre Principal.anonymous now.ns purpose).1 = r :=
      Reply.challenge.inj (reply_at h hi hlabel)
    rw [← hr, requestChallengeImpl_throttled (checkAndUpdateThrottle_anonymous rfl)]
  anonymousVerify τ hτ w now id proofBytes publicInputs r hlabel := by
    obtain ⟨i, hi⟩ := List.getElem?_of_mem hτ
    have hr : (verify w τ.pre Principal.anonymous now.ns id proofBytes publicInputs).1 = r :=
      Reply.verified.inj (reply_at h hi hlabel)
    rw [← hr, verify_throttled (checkAndUpdateThrottle_anonymous rfl)]

/-! ## Refused calls -/

def tickedState : State := heartbeatImpl reorderedState timeHour.ns

/-- After an upgrade has reordered the log, the owner requests and answers. -/
def hourExchange : Exchange := ⟨owner, timeHour, timeHour, fe 7⟩

theorem hourExchange_ready : hourExchange.Ready tickedState where
  named := by
    show owner ≠ Principal.anonymous
    decide
  challengeRested := by
    rintro ⟨last, hlast, hlt⟩
    have hzero : tickedState.lastChallengeCallAt.lookup owner = some 0 := reordered_owner
    rw [show tickedState.lastChallengeCallAt.lookup hourExchange.caller = some 0 from hzero] at hlast
    cases hlast
    exact absurd hlt (by decide)
  verifyRested := by
    have h := heartbeatImpl_throttle .verify reorderedState timeHour.ns
    have hempty : pruneThrottleLog timeHour.ns maxPrunePerHeartbeat reorderedState.lastVerifyCallAt [] = (∅, []) := rfl
    have hmap : tickedState.lastVerifyCallAt = ∅ := (Prod.mk.inj (h.trans hempty)).1
    refine not_recent_of_none ?_
    rw [hmap]
    rfl
  inTime := by
    show timeHour.ns ≤ i64 (timeHour.ns + challengeTtlNs)
    decide
  unspent := by
    unfold tickedState
    rw [heartbeatImpl_nullifiers]
    rfl

def exchangedState : State :=
  (hourExchange.verified tickedState (accepting (hourExchange.statement tickedState))).post

/-- A call of the owner that is refused at once. -/
def refused (c : Call) (r : Reply) : Transition State Event :=
  ⟨exchangedState, .call rejectAll owner timeHour c r, exchangedState⟩

/-- The owner calls both methods again too early. -/
def hurriedTrace : Trace :=
  reorderedTrace ++ hourExchange.trace tickedState ++
    [refused (.requestChallenge 1) (.challenge (.error "rate limit: try again shortly")),
      refused (.verify 0 [] (hourExchange.inputs tickedState)) (.verified (.error "rate limit: try again shortly"))]

theorem hurried_run : CanisterRun hurriedTrace exchangedState := by
  have ha : owner ≠ Principal.anonymous := by decide
  have hrequest : Recent exchangedState.lastChallengeCallAt owner timeHour.ns := by
    refine ⟨timeHour.ns, ?_, by decide⟩
    show (tickedState.lastChallengeCallAt.insert owner timeHour.ns).lookup owner = some timeHour.ns
    rw [lookup_insert, if_pos rfl]
  have hverify : Recent exchangedState.lastVerifyCallAt owner timeHour.ns := by
    refine ⟨timeHour.ns, ?_, by decide⟩
    show (tickedState.lastVerifyCallAt.insert owner timeHour.ns).lookup owner = some timeHour.ns
    rw [lookup_insert, if_pos rfl]
  have h := Step.call (s := exchangedState) rejectAll owner timeHour (.requestChallenge 1)
  simp only [exec, requestChallengeImpl_throttled (checkAndUpdateThrottle_recent ha hrequest)] at h
  have h' := Step.call (s := exchangedState) rejectAll owner timeHour (.verify 0 [] (hourExchange.inputs tickedState))
  simp only [exec, verify_throttled (checkAndUpdateThrottle_recent ha hverify)] at h'
  exact ((reordered_run.append hourExchange_ready.run).snoc h).snoc h'

theorem hurried_clock : Clock hurriedTrace := by
  have hlater : ∀ τ ∈ hourExchange.trace tickedState ++
      [refused (.requestChallenge 1) (.challenge (.error "rate limit: try again shortly")),
        refused (.verify 0 [] (hourExchange.inputs tickedState)) (.verified (.error "rate limit: try again shortly"))],
      τ.label.time = timeHour.ns :=
    List.forall_mem_cons.2 ⟨rfl, List.forall_mem_cons.2 ⟨rfl, List.forall_mem_cons.2 ⟨rfl, List.forall_mem_singleton.2 rfl⟩⟩⟩
  have hearlier : ∀ τ ∈ reorderedTrace, τ.label.time ≤ timeHour.ns :=
    List.forall_mem_cons.2 ⟨timeHour.nonneg, List.forall_mem_cons.2 ⟨le_refl timeHour.ns,
      List.forall_mem_cons.2 ⟨le_refl timeHour.ns, List.forall_mem_singleton.2 (le_refl timeHour.ns)⟩⟩⟩
  unfold hurriedTrace
  rw [List.append_assoc]
  refine List.pairwise_append.2 ⟨reordered_clock, Clock.of_time hlater, fun τ hτ τ' hτ' => ?_⟩
  rw [hlater τ' hτ']
  exact hearlier τ hτ

/-- The limit holds across a reordering upgrade, for calls that pass and for refused ones. -/
theorem rate_limit_exact_sample : RateLimited hurriedTrace := rate_limit_exact hurried_run hurried_clock

end Yaqeen.Canister
