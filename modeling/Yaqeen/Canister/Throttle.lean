/-
The throttles of `request_challenge` and `verify`, over whole runs: what a step does to a map and its log,
and the ledger that every run keeps. Each entry of the map is logged and each log entry is a call that
passed, so no entry leaks; a call that passed is forgotten only long after it could matter, so the
throttle decides exactly by the caller's own recent calls.
-/
import Yaqeen.Canister.Nullifiers

namespace Yaqeen.Canister

open Air FinMap Runs LoggedMap

/-! ## The two methods -/

/-- Only a `verify` passes the throttle of `verify`. -/
theorem not_passedThrottle {w : Winterfell} {caller p : Principal} {now t : Time} {c : Call} {r : Reply}
    (hc : c.isVerify = false) : ¬ PassedThrottle (.call w caller now c r) p t := by
  rintro ⟨w', id, proofBytes, publicInputs, r', heq, -⟩
  injection heq with _ _ _ h
  rw [h] at hc
  cases hc

/-- The throttled methods, each with a map of last calls and a log of its own. -/
inductive Method
  | requestChallenge
  | verify

namespace Method

def lastCallAt : Method → State → HashMap Principal Int
  | .requestChallenge, s => s.lastChallengeCallAt
  | .verify, s => s.lastVerifyCallAt

def throttleLog : Method → State → List (Principal × Int)
  | .requestChallenge, s => s.challengeThrottleLog
  | .verify, s => s.verifyThrottleLog

/-- A call of `p` at `t` that the throttle of the method let through: an accepted `request_challenge`, or
a `verify` whatever its final result. -/
def Passed : Method → Event → Principal → Time → Prop
  | .requestChallenge, e, p, t => ∃ purpose view, Requested e p t purpose view
  | .verify, e, p, t => PassedThrottle e p t

theorem Passed.call {m : Method} {e : Event} {p : Principal} {t : Time} (h : m.Passed e p t) :
    ∃ w c r, e = .call w p t c r := by
  cases m with
  | requestChallenge =>
    obtain ⟨purpose, view, w, rfl⟩ := h
    exact ⟨_, _, _, rfl⟩
  | verify =>
    obtain ⟨w, id, proofBytes, publicInputs, r, rfl, -⟩ := h
    exact ⟨_, _, _, rfl⟩

theorem Passed.time {m : Method} {e : Event} {p : Principal} {t : Time} (h : m.Passed e p t) : e.time = t.ns := by
  obtain ⟨w, c, r, rfl⟩ := h.call
  rfl

theorem Passed.unique {m : Method} {e : Event} {p p' : Principal} {t t' : Time} (h : m.Passed e p t)
    (h' : m.Passed e p' t') : p = p' ∧ t = t' := by
  obtain ⟨w, c, r, rfl⟩ := h.call
  obtain ⟨w', c', r', heq⟩ := h'.call
  injection heq with _ hp ht
  exact ⟨hp, ht⟩

theorem Passed.not_upgrade {m : Method} {e : Event} {p : Principal} {t : Time} (h : m.Passed e p t) :
    e.isUpgrade = false := by
  obtain ⟨w, c, r, rfl⟩ := h.call
  rfl

theorem not_passed_heartbeat (m : Method) (now : Time) (p : Principal) (t : Time) : ¬ m.Passed (.heartbeat now) p t := by
  intro h
  obtain ⟨w, c, r, heq⟩ := h.call
  cases heq

theorem not_passed_upgrade (m : Method) (now : Time) (p : Principal) (t : Time) : ¬ m.Passed (.upgrade now) p t := by
  intro h
  obtain ⟨w, c, r, heq⟩ := h.call
  cases heq

/-- A call with another name, or with a reply that reports no success, passes neither throttle unless it is
a `verify`. -/
theorem not_passed (m : Method) {w : Winterfell} {caller p : Principal} {now t : Time} {c : Call} {r : Reply}
    (hc : c.isVerify = false) (hr : (Event.call w caller now c r).isRequest = false ∨ r.isSilent = true) :
    ¬ m.Passed (.call w caller now c r) p t := by
  cases m with
  | requestChallenge =>
    rintro ⟨purpose, view, w', heq⟩
    rcases hr with hr | hr
    · rw [heq] at hr
      cases hr
    · injection heq with _ _ _ _ h
      rw [h] at hr
      cases hr
  | verify => exact not_passedThrottle hc

end Method

/-! ## What a step does to a throttle -/

/-- A step records a call that passed, leaves the throttle alone, prunes it or rebuilds its log. -/
inductive ThrottleStep (m : Method) (s : State) (e : Event) (s' : State) : Prop
  | passed {p : Principal} {t : Time} : m.Passed e p t → m.lastCallAt s' = (m.lastCallAt s).insert p t.ns →
      m.throttleLog s' = m.throttleLog s ++ [(p, t.ns)] → ThrottleStep m s e s'
  | idle : (∀ p t, ¬ m.Passed e p t) → e.isUpgrade = false → m.lastCallAt s' = m.lastCallAt s →
      m.throttleLog s' = m.throttleLog s → ThrottleStep m s e s'
  | pruned {now : Time} {popped : List (Principal × Int)} : e = .heartbeat now →
      m.throttleLog s = popped ++ m.throttleLog s' →
      Pruned (Stale now.ns) maxPrunePerHeartbeat (m.lastCallAt s) popped (m.throttleLog s') (m.lastCallAt s') →
      ThrottleStep m s e s'
  | restored {now : Time} (order : Iteration (m.lastCallAt s)) : e = .upgrade now →
      m.lastCallAt s' = m.lastCallAt s → m.throttleLog s' = order.entries → ThrottleStep m s e s'

theorem heartbeatImpl_throttle (m : Method) (s : State) (nowNs : Int) :
    (m.lastCallAt (heartbeatImpl s nowNs), m.throttleLog (heartbeatImpl s nowNs)) =
      pruneThrottleLog nowNs maxPrunePerHeartbeat (m.lastCallAt s) (m.throttleLog s) := by
  obtain ⟨challenges, oldest, h, -⟩ := pruneChallenges_spec nowNs maxPrunePerHeartbeat s
  unfold heartbeatImpl
  rw [h]
  cases m <;> rfl

/-- A tick pops a prefix of the log, at most the cap of it. -/
theorem heartbeat_pops (m : Method) (s : State) (now : Time) :
    ∃ popped, m.throttleLog s = popped ++ m.throttleLog (heartbeatImpl s now.ns) ∧
      Pruned (Stale now.ns) maxPrunePerHeartbeat (m.lastCallAt s) popped (m.throttleLog (heartbeatImpl s now.ns))
        (m.lastCallAt (heartbeatImpl s now.ns)) := by
  have h := heartbeatImpl_throttle m s now.ns
  rw [pruneThrottleLog_eq] at h
  obtain ⟨popped, rest, hlog, hrest, hpruned⟩ :=
    prune_spec (Stale now.ns) maxPrunePerHeartbeat (m.lastCallAt s) (m.throttleLog s)
  rw [← h] at hrest hpruned
  subst hrest
  exact ⟨popped, hlog, hpruned⟩

/-- A `verify` that gets past its throttle leaves the other one alone. -/
theorem verify_throttleStep (m : Method) {s s' : State} {w : Winterfell} {caller : Principal} {now : Time} {id : UInt64}
    {proofBytes : List UInt8} {publicInputs : VerifyPublicInputs} {r : Except String VerifyOk}
    (hstore : m.lastCallAt s' = m.lastCallAt (touch s caller now.ns))
    (hlog : m.throttleLog s' = m.throttleLog (touch s caller now.ns)) (hr : ∀ err ∈ throttleErrors, r ≠ .error err) :
    ThrottleStep m s (.call w caller now (.verify id proofBytes publicInputs) (.verified r)) s' := by
  cases m with
  | requestChallenge =>
    refine .idle (fun p t h => ?_) rfl hstore hlog
    obtain ⟨purpose, view, w', heq⟩ := h
    injection heq with _ _ _ hc
    cases hc
  | verify => exact .passed ⟨_, _, _, _, _, rfl, hr⟩ hstore hlog

theorem throttle_step (m : Method) {s s' : State} {e : Event} (hk : Keyed s) (hst : Step s e s') :
    ThrottleStep m s e s' := by
  cases step_change hk hst with
  | silent hc hr => exact .idle (fun _ _ => m.not_passed hc (.inr hr)) rfl rfl rfl
  | admins admins hc hr =>
    rename_i c _
    refine .idle (fun _ _ => m.not_passed (Call.isVerify_of_isAdmin hc) (.inl ?_)) rfl ?_ ?_
    · cases c <;> first | rfl | cases hc
    · cases m <;> rfl
    · cases m <;> rfl
  | submitted =>
    obtain ⟨_, _, heq, -⟩ := submit_eq s _ _
    rw [heq]
    refine .idle (fun _ _ => m.not_passed rfl (.inl rfl)) rfl ?_ ?_
    · cases m <;> rfl
    · cases m <;> rfl
  | requested =>
    cases m with
    | requestChallenge => exact .passed ⟨_, _, _, rfl⟩ rfl rfl
    | verify => exact .idle (fun _ _ => not_passedThrottle rfl) rfl rfl rfl
  | throttled he =>
    refine .idle (fun p t h => ?_) rfl rfl rfl
    cases m with
    | requestChallenge =>
      obtain ⟨purpose, view, w', heq⟩ := h
      injection heq with _ _ _ hc
      cases hc
    | verify =>
      obtain ⟨w', id', proofBytes', publicInputs', r', heq, hr⟩ := h
      injection heq with _ _ _ _ hreply
      injection hreply with hreply
      exact hr _ he hreply.symm
  | failed _ he => exact verify_throttleStep m (by cases m <;> rfl) (by cases m <;> rfl) fun err herr h => he (by cases h; exact herr)
  | verified _ _ _ => exact verify_throttleStep m (by cases m <;> rfl) (by cases m <;> rfl) fun err _ h => by cases h
  | heartbeat =>
    obtain ⟨popped, hlog, hpruned⟩ := heartbeat_pops m s _
    exact .pruned rfl hlog hpruned
  | upgraded =>
    obtain ⟨challenge, verify, heq⟩ := upgrade_step hk hst
    rw [heq]
    cases m with
    | requestChallenge => exact .restored challenge rfl rfl rfl
    | verify => exact .restored verify rfl rfl rfl

/-- An entry of the map after a step is the call it recorded, or was there before. -/
theorem ThrottleStep.entry {m : Method} {s s' : State} {e : Event} (h : ThrottleStep m s e s') {p : Principal} {ts : Int}
    (hp : (m.lastCallAt s').lookup p = some ts) :
    (∃ t : Time, m.Passed e p t ∧ t.ns = ts) ∨
      ((m.lastCallAt s).lookup p = some ts ∧ ∀ t, ¬ m.Passed e p t) := by
  cases h with
  | @passed q t hq hstore _ =>
    rw [hstore, lookup_insert] at hp
    split at hp
    · rename_i hpq
      cases hp
      exact .inl ⟨t, hpq ▸ hq, rfl⟩
    · rename_i hpq
      exact .inr ⟨hp, fun t' hp' => hpq (hp'.unique hq).1⟩
  | idle hno _ hstore _ => exact .inr ⟨hstore ▸ hp, hno p⟩
  | pruned heq _ hpruned =>
    subst heq
    exact .inr ⟨((hpruned.lookup p ts).1 hp).1, m.not_passed_heartbeat _ p⟩
  | restored _ heq hstore _ =>
    subst heq
    exact .inr ⟨hstore ▸ hp, m.not_passed_upgrade _ p⟩

/-! ## The ledger of a throttle -/

/-- The map is backed by its log, and every logged call is one that passed. -/
structure Ledger (m : Method) (tr : Trace) (s : State) : Prop where
  covered : Covered (m.lastCallAt s) (m.throttleLog s)
  passed : ∀ e ∈ m.throttleLog s, ∃ τ ∈ tr, ∃ t : Time, m.Passed τ.label e.1 t ∧ t.ns = e.2

/-- Between two times no subtraction wraps around. -/
theorem stale_iff {now t : Time} : Stale now.ns t.ns ↔ throttleRetentionNs ≤ now.ns - t.ns := by
  have h0 := now.nonneg
  have h1 := now.lt
  have h2 := t.nonneg
  have h3 := t.lt
  unfold Stale
  rw [i64_of_range (by omega) (by omega), not_lt]

section

variable {m : Method} {tr : Trace} {s s' : State} {e : Event}

theorem Ledger.step (h : Ledger m tr s) (hst : ThrottleStep m s e s') : Ledger m (tr ++ [⟨s, e, s'⟩]) s' := by
  have hold : ∀ x ∈ m.throttleLog s,
      ∃ τ ∈ tr ++ [⟨s, e, s'⟩], ∃ t : Time, m.Passed τ.label x.1 t ∧ t.ns = x.2 := by
    intro x hx
    obtain ⟨τ, hτ, hp⟩ := h.passed x hx
    exact ⟨τ, List.mem_append_left _ hτ, hp⟩
  cases hst with
  | @passed p t hp hstore hlog =>
    refine ⟨?_, fun x hx => ?_⟩
    · intro q ts hq
      rw [hlog, List.mem_append, List.mem_singleton]
      rw [hstore, lookup_insert] at hq
      split at hq
      · rename_i hqp
        cases hq
        exact .inr (by rw [hqp])
      · exact .inl (h.covered q ts hq)
    · rw [hlog, List.mem_append, List.mem_singleton] at hx
      rcases hx with hx | rfl
      · exact hold x hx
      · exact ⟨_, List.mem_append_right _ List.mem_cons_self, t, hp, rfl⟩
  | idle _ _ hstore hlog =>
    refine ⟨?_, ?_⟩
    · rw [hstore, hlog]
      exact h.covered
    · rw [hlog]
      exact hold
  | pruned _ hlog hpruned =>
    exact ⟨hpruned.covered (hlog ▸ h.covered), fun x hx => hold x (hlog ▸ List.mem_append_right _ hx)⟩
  | restored order _ hstore hlog =>
    -- the new log lists the map, and the old log held all of it
    refine ⟨fun p ts hp => ?_, fun x hx => ?_⟩
    · rw [hlog, order.mem, ← hstore]
      exact hp
    · rw [hlog, order.mem] at hx
      exact hold x (h.covered _ _ hx)

/-- Every run keeps the ledger of both throttles. -/
theorem ledger_run (m : Method) {tr : Trace} {s : State} (h : CanisterRun tr s) : Ledger m tr s := by
  refine h.invariant_history (P := Ledger m) ?_ fun _ _ _ _ hr ih hst =>
    ih.step (throttle_step m (treeInv_reachable hr).keyed hst)
  refine ⟨fun p ts hp => ?_, fun x hx => ?_⟩
  · cases m <;> cases hp
  · cases m <;> cases hx

theorem Ledger.time (h : Ledger m tr s) {x : Principal × Int} (hx : x ∈ m.throttleLog s) : ∃ t : Time, t.ns = x.2 := by
  obtain ⟨_, _, t, _, ht⟩ := h.passed x hx
  exact ⟨t, ht⟩

end

/-! ## No entry leaks -/

/-- Ticks at times when every logged entry is stale pop the log from the front, the cap each. -/
theorem drain_run (m : Method) {tr tr' : Trace} {s s' : State} (h : CanisterRun tr s) (h' : Run Step s tr' s')
    (hstale : ∀ τ ∈ tr', ∃ now : Time, τ.label = .heartbeat now ∧
      ∀ x ∈ m.throttleLog s, throttleRetentionNs ≤ now.ns - x.2) :
    ∃ popped, m.throttleLog s = popped ++ m.throttleLog s' ∧
      popped.length = min (m.throttleLog s).length (maxPrunePerHeartbeat * tr'.length) := by
  induction h' with
  | nil => exact ⟨[], rfl, by simp⟩
  | @snoc tr₁ s₁ e s₂ hr hst ih =>
    obtain ⟨popped, hlog, hlen⟩ := ih fun τ hτ => hstale τ (List.mem_append_left _ hτ)
    obtain ⟨now, rfl, hnow⟩ := hstale _ (List.mem_append_right _ List.mem_cons_self)
    rw [step_heartbeat hst]
    obtain ⟨popped₁, hlog₁, hpruned⟩ := heartbeat_pops m s₁ now
    -- what is left of the log is stale at this tick too, so the cap alone bounds what it pops
    have hall : ∀ x ∈ m.throttleLog (heartbeatImpl s₁ now.ns), Stale now.ns x.2 := by
      intro x hx
      have hx : x ∈ m.throttleLog s := by
        rw [hlog, hlog₁]
        exact List.mem_append_right _ (List.mem_append_right _ hx)
      obtain ⟨t, ht⟩ := (ledger_run m h).time hx
      have := hnow x hx
      rw [← ht] at this ⊢
      exact stale_iff.2 this
    have hlen₁ := hpruned.length_popped hall
    rw [← hlog₁] at hlen₁
    refine ⟨popped ++ popped₁, by rw [List.append_assoc, ← hlog₁, hlog], ?_⟩
    have htotal := congrArg List.length hlog
    rw [List.length_append] at htotal
    rw [List.length_append, List.length_append, List.length_singleton, Nat.mul_add]
    omega

/-- Every entry of a throttle map is in its log, a tick pops at most the cap of it, and from any reachable
state ticks at times when every logged call is past its retention empty both, as many as it takes to
pop the log. -/
theorem throttle_maps_drain (m : Method) {tr : Trace} {s : State} (h : CanisterRun tr s) :
    (∀ p ts, (m.lastCallAt s).lookup p = some ts → (p, ts) ∈ m.throttleLog s) ∧
    (∀ now : Time, ∃ popped, m.throttleLog s = popped ++ m.throttleLog (heartbeatImpl s now.ns) ∧
      popped.length ≤ maxPrunePerHeartbeat) ∧
    ∀ tr' s', Run Step s tr' s' →
      (∀ τ ∈ tr', ∃ now : Time, τ.label = .heartbeat now ∧
        ∀ x ∈ m.throttleLog s, throttleRetentionNs ≤ now.ns - x.2) →
      (m.throttleLog s).length ⌈/⌉ maxPrunePerHeartbeat ≤ tr'.length →
      m.throttleLog s' = [] ∧ m.lastCallAt s' = ∅ := by
  refine ⟨(ledger_run m h).covered, fun now => ?_, fun tr' s' h' hstale hticks => ?_⟩
  · obtain ⟨popped, hlog, hpruned⟩ := heartbeat_pops m s now
    exact ⟨popped, hlog, hpruned.capped⟩
  · obtain ⟨popped, hlog, hlen⟩ := drain_run m h h' hstale
    have hempty : m.throttleLog s' = [] := by
      refine List.eq_nil_of_length_eq_zero ?_
      have htotal := congrArg List.length hlog
      rw [List.length_append] at htotal
      have hpops := (ceilDiv_le_iff_le_mul (by decide)).1 hticks
      omega
    have hcovered := (ledger_run m (h.append h')).covered
    rw [hempty] at hcovered
    exact ⟨hempty, hcovered.empty⟩

/-- The owner's request is forgotten by the first tick an hour later. -/
theorem throttle_maps_drain_sample :
    (heartbeatImpl (request freshState owner 0 1) timeHour.ns).challengeThrottleLog = [] ∧
    (heartbeatImpl (request freshState owner 0 1) timeHour.ns).lastChallengeCallAt = ∅ := by
  refine (throttle_maps_drain .requestChallenge requested_run).2.2 _ _ (Run.nil.snoc (.heartbeat timeHour))
    (fun τ hτ => ⟨timeHour, ?_, fun x hx => ?_⟩) (by decide)
  · rw [List.mem_singleton.1 hτ]
  · have hx : x ∈ [(owner, (0 : Int))] := hx
    rw [List.mem_singleton.1 hx]
    decide

/-! ## What an early exit misses -/

/-- The last upgrade of a trace. -/
def LastUpgrade (tr : Trace) (u : Transition State Event) : Prop :=
  ∃ before after, tr = before ++ u :: after ∧ u.label.isUpgrade = true ∧ ∀ τ ∈ after, τ.label.isUpgrade = false

/-- The last upgrade left two entries in the log in this order, the second with its entry in the map. -/
def RestoredInOrder (m : Method) (tr : Trace) (a b : Principal × Int) : Prop :=
  ∃ u, LastUpgrade tr u ∧ [a, b].Sublist (m.throttleLog u.post) ∧ (m.lastCallAt u.post).lookup b.1 = some b.2

/-- Any two logged entries are in the order of their times, but for those an upgrade left otherwise. -/
def Ordered (m : Method) (tr : Trace) (s : State) : Prop :=
  ∀ a b, [a, b].Sublist (m.throttleLog s) → b.2 < a.2 → RestoredInOrder m tr a b

section

variable {m : Method} {tr : Trace} {s s' : State} {e : Event}

theorem RestoredInOrder.snoc {a b : Principal × Int} (h : RestoredInOrder m tr a b) {τ : Transition State Event}
    (hτ : τ.label.isUpgrade = false) : RestoredInOrder m (tr ++ [τ]) a b := by
  obtain ⟨u, ⟨before, after, rfl, hu, hafter⟩, hrest⟩ := h
  refine ⟨u, ⟨before, after ++ [τ], by rw [List.append_assoc, List.cons_append], hu, fun τ' hτ' => ?_⟩, hrest⟩
  rcases List.mem_append.1 hτ' with h | h
  · exact hafter τ' h
  · rwa [List.mem_singleton.1 h]

theorem Ordered.step (h : Ordered m tr s) (hledger : Ledger m tr s) (hclock : ∀ τ ∈ tr, τ.label.time ≤ e.time)
    (hst : ThrottleStep m s e s') : Ordered m (tr ++ [⟨s, e, s'⟩]) s' := by
  intro a b hab hlt
  cases hst with
  | @passed p t hp _ hlog =>
    rw [hlog] at hab
    rcases pair_sublist_snoc hab with hab | ⟨rfl, ha⟩
    · exact (h a b hab hlt).snoc hp.not_upgrade
    · -- the call just logged is the latest
      obtain ⟨τ, hτ, t', hp', ht'⟩ := hledger.passed a ha
      have := hclock τ hτ
      rw [hp'.time, hp.time, ht'] at this
      exact absurd hlt (not_lt.2 this)
  | idle _ hup _ hlog =>
    rw [hlog] at hab
    exact (h a b hab hlt).snoc hup
  | pruned heq hlog _ =>
    refine (h a b ?_ hlt).snoc (by rw [heq]; rfl)
    rw [hlog]
    exact hab.trans (List.sublist_append_right _ _)
  | restored order heq hstore hlog =>
    refine ⟨_, ⟨tr, [], rfl, by rw [heq]; rfl, fun τ hτ => by cases hτ⟩, hab, ?_⟩
    have hb : b ∈ order.entries := hlog ▸ hab.subset (List.mem_cons_of_mem _ List.mem_cons_self)
    exact hstore ▸ (order.mem _ _).1 hb

end

theorem ordered_run (m : Method) {tr : Trace} {s : State} (h : CanisterRun tr s) (hclock : Clock tr) :
    Ordered m tr s := by
  refine h.invariant_history (P := fun tr s => Clock tr → Ordered m tr s) (fun _ a b hab _ => ?_) ?_ hclock
  · cases m <;> cases hab
  · intro tr s e s' hr ih hst hclock
    exact (ih hclock.snoc.1).step (ledger_run m hr) hclock.snoc.2 (throttle_step m (treeInv_reachable hr).keyed hst)

/-- When a tick pops fewer calls than its cap, an entry past its retention stays in the map only if the last
upgrade restored it and rebuilt the log with a call that is not past its own in front of it. -/
theorem early_exit_misses_restored (m : Method) {tr : Trace} {s : State} (h : CanisterRun tr s) (hclock : Clock tr) {i : ℕ}
    {τ : Transition State Event} {now : Time} (hi : tr[i]? = some τ) (hτ : τ.label = .heartbeat now)
    (hearly : (m.throttleLog τ.pre).length < (m.throttleLog τ.post).length + maxPrunePerHeartbeat) {p : Principal}
    {ts : Int} (hp : (m.lastCallAt τ.post).lookup p = some ts) (hts : throttleRetentionNs ≤ now.ns - ts) :
    ∃ u q last, LastUpgrade (tr.take i) u ∧ (m.lastCallAt u.post).lookup p = some ts ∧
      [(q, last), (p, ts)].Sublist (m.throttleLog u.post) ∧ now.ns - last < throttleRetentionNs := by
  obtain ⟨hbefore, hst⟩ := h.before hi
  rw [hτ] at hst
  have hledger := ledger_run m hbefore
  obtain ⟨popped, hlog, hpruned⟩ := heartbeat_pops m τ.pre now
  rw [← step_heartbeat hst] at hlog hpruned
  have hcapped : popped.length < maxPrunePerHeartbeat := by
    rw [hlog, List.length_append] at hearly
    omega
  have hlogged := hledger.covered p ts ((hpruned.lookup p ts).1 hp).1
  obtain ⟨t, rfl⟩ : ∃ t : Time, t.ns = ts := hledger.time hlogged
  obtain ⟨⟨q, last⟩, hfresh, hsub⟩ := hpruned.missed (hlog ▸ hledger.covered) hcapped hp (stale_iff.2 hts)
  rw [← hlog] at hsub
  obtain ⟨t', rfl⟩ : ∃ t' : Time, t'.ns = last := hledger.time (hsub.subset List.mem_cons_self)
  have hfresh : now.ns - t'.ns < throttleRetentionNs := not_le.1 fun hle => hfresh (stale_iff.2 hle)
  -- the entry in front is the later call, and only a rebuilt log holds two calls out of order
  obtain ⟨u, hu, hsub, hrestored⟩ := ordered_run m hbefore (hclock.sublist (List.take_sublist i tr)) _ _ hsub (by
    show t.ns < t'.ns
    omega)
  exact ⟨u, q, t'.ns, hu, hrestored, hsub, hfresh⟩

/-! ## An upgrade that reorders a log -/

/-- The registrar has requested a challenge an hour after the owner. -/
def hourLater : State := request (request freshState owner 0 1) registrar timeHour.ns 1

/-- The upgrade iterates the registrar's call first. -/
def reordered : Iteration hourLater.lastChallengeCallAt :=
  (Iteration.empty.cons owner 0 rfl).cons registrar timeHour.ns rfl

def unverified : Iteration hourLater.lastVerifyCallAt := Iteration.empty

def reorderedState : State := upgraded hourLater reordered.entries unverified.entries

/-- Two requests an hour apart, an upgrade and a tick. -/
def reorderedTrace : Trace :=
  [requestTransition freshState,
    ⟨request freshState owner 0 1, .call rejectAll registrar timeHour (.requestChallenge 1)
      (.challenge (.ok (viewOf 1 (issued (request freshState owner 0 1) registrar timeHour.ns 1)))), hourLater⟩,
    ⟨hourLater, .upgrade timeHour, reorderedState⟩,
    ⟨reorderedState, .heartbeat timeHour, heartbeatImpl reorderedState timeHour.ns⟩]

theorem reordered_run : CanisterRun reorderedTrace (heartbeatImpl reorderedState timeHour.ns) := by
  have hlater : CanisterRun _ hourLater := requested_run.snoc
    (step_request rejectAll 1 (by decide) (not_recent_of_none rfl))
  exact (hlater.snoc (step_upgrade (treeInv_reachable hlater).keyed timeHour reordered unverified)).snoc
    (.heartbeat timeHour)

theorem reordered_clock : Clock reorderedTrace := by
  have h : (0 : Int) ≤ timeHour.ns := timeHour.nonneg
  exact .cons (by simpa [Event.time, requestTransition, requestBy, timeZero] using h) (.cons (by simp [Event.time])
    (.cons (by simp [Event.time]) (.cons (by simp) .nil)))

/-- The registrar's call, just made, is in front of the log and ends the tick at once. -/
theorem reordered_kept :
    (heartbeatImpl reorderedState timeHour.ns).lastChallengeCallAt = hourLater.lastChallengeCallAt ∧
    (heartbeatImpl reorderedState timeHour.ns).challengeThrottleLog = reordered.entries := by
  have h := heartbeatImpl_throttle .requestChallenge reorderedState timeHour.ns
  have hfront : pruneThrottleLog timeHour.ns maxPrunePerHeartbeat reorderedState.lastChallengeCallAt
      [(registrar, timeHour.ns), (owner, 0)] = (hourLater.lastChallengeCallAt, reordered.entries) := if_pos (by decide)
  exact Prod.mk.inj (h.trans hfront)

theorem reordered_early : (Method.requestChallenge.throttleLog reorderedState).length <
    (Method.requestChallenge.throttleLog (heartbeatImpl reorderedState timeHour.ns)).length + maxPrunePerHeartbeat := by
  rw [show Method.requestChallenge.throttleLog (heartbeatImpl reorderedState timeHour.ns) = reordered.entries from
    reordered_kept.2]
  decide

theorem reordered_owner :
    (Method.requestChallenge.lastCallAt (heartbeatImpl reorderedState timeHour.ns)).lookup owner = some 0 := by
  rw [show Method.requestChallenge.lastCallAt (heartbeatImpl reorderedState timeHour.ns) =
    hourLater.lastChallengeCallAt from
    reordered_kept.1]
  rfl

/-- The owner's call is left behind the registrar's. -/
theorem early_exit_misses_restored_sample :
    ∃ u q last, LastUpgrade (reorderedTrace.take 3) u ∧ u.post.lastChallengeCallAt.lookup owner = some 0 ∧
      [(q, last), (owner, 0)].Sublist u.post.challengeThrottleLog ∧ timeHour.ns - last < throttleRetentionNs :=
  early_exit_misses_restored .requestChallenge reordered_run reordered_clock (i := 3) rfl rfl reordered_early
    reordered_owner (by decide)

/-- After an upgrade that iterates the later of two calls first, a tick an hour later stops at once and leaves
the entry of the earlier one, which is past its retention. -/
theorem early_exit_leaves_stale_entry :
    CanisterRun reorderedTrace (heartbeatImpl reorderedState timeHour.ns) ∧ Clock reorderedTrace ∧
    reorderedTrace[3]? = some ⟨reorderedState, .heartbeat timeHour, heartbeatImpl reorderedState timeHour.ns⟩ ∧
    reorderedState.challengeThrottleLog.length <
      (heartbeatImpl reorderedState timeHour.ns).challengeThrottleLog.length + maxPrunePerHeartbeat ∧
    (heartbeatImpl reorderedState timeHour.ns).lastChallengeCallAt.lookup owner = some 0 ∧
    throttleRetentionNs ≤ timeHour.ns - 0 :=
  ⟨reordered_run, reordered_clock, rfl, reordered_early, reordered_owner, by decide⟩

end Yaqeen.Canister
