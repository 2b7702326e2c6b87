/-
Upgrades are as unobservable as pruning. While the titles fit into the tree, two runs with the same calls,
whatever heartbeats and upgrades are interleaved in either, answer every call alike, except for the text with
which `verify` refuses an expired challenge: the answers are a function of the calls.
-/
import Yaqeen.Canister.Heartbeats
import Yaqeen.Canister.RoundTrip

namespace Yaqeen.Canister

open Air FinMap Runs

/-! ## Calls -/

/-- What a caller gives the canister. -/
def Event.callInput : Event → Option Input
  | .call w caller now c _ => some (.call w caller now c)
  | .heartbeat _ => none
  | .upgrade _ => none

/-- The transitions of a trace that are calls. -/
def calls (tr : Trace) : Trace := tr.filter fun τ => τ.label.callInput.isSome

theorem calls_silent {tr : Trace} {τ : Transition State Event} (h : τ.label.callInput = none) :
    calls (tr ++ [τ]) = calls tr := by
  unfold calls
  rw [List.filter_append]
  simp [h]

theorem calls_call {tr : Trace} {τ : Transition State Event} {i : Input} (h : τ.label.callInput = some i) :
    calls (tr ++ [τ]) = calls tr ++ [τ] := by
  unfold calls
  rw [List.filter_append]
  simp [h]

theorem input_of_callInput {e : Event} {i : Input} (h : e.callInput = some i) : e.input = some i := by
  cases e with
  | call => exact h
  | heartbeat => cases h
  | upgrade => cases h

/-! ## Upgrades -/

/-- The registry fits its tree before a step if it does after it. -/
theorem card_step {s s' : State} {e : Event} (hk : Keyed s) (hst : Step s e s') :
    s.leafIndexByProperty.keys.card ≤ s'.leafIndexByProperty.keys.card := by
  refine Finset.card_le_card fun p hp => ?_
  obtain ⟨i, hi⟩ := (mem_keys_iff _ _).1 hp
  exact (mem_keys_iff _ _).2 ⟨i, index_step hk hst hi⟩

/-- An upgrade changes the logs at most. -/
theorem upgrade_fits {tr : Trace} {s s' : State} {now : Time} (h : CanisterRun tr s)
    (hcap : s.leafIndexByProperty.keys.card ≤ 2 ^ treeDepth) (hst : Step s (.upgrade now) s') :
    ∃ challengeLog verifyLog, s' = { s with challengeThrottleLog := challengeLog, verifyThrottleLog := verifyLog } := by
  have hinv := treeInv_reachable h
  obtain ⟨challenge, verify, rfl⟩ := upgrade_step hinv.keyed hst
  refine ⟨challenge.entries, verify.entries, ?_⟩
  unfold upgraded
  rw [hinv.restored_root fun p i hp => lt_of_lt_of_le (hinv.index_lt p i hp) hcap, ← hinv.zeros]

theorem Method.lastCallAt_logs (m : Method) (s : State) (challengeLog verifyLog : List (Principal × Int)) :
    m.lastCallAt { s with challengeThrottleLog := challengeLog, verifyThrottleLog := verifyLog } = m.lastCallAt s := by
  cases m with
  | requestChallenge => rfl
  | verify => rfl

section

variable {tr : Trace} {s₁ s₂ s' : State} {e : Event} {t : Int}

/-- A heartbeat or an upgrade of one run leaves the states similar, -/
theorem Similar.silent_left (h : Similar t s₁ s₂) (h₁ : CanisterRun tr s₁)
    (hcap : s₁.leafIndexByProperty.keys.card ≤ 2 ^ treeDepth) (hst : Step s₁ e s') (he : e.callInput = none)
    (ht : e.time ≤ t) : Similar t s' s₂ := by
  cases e with
  | call => cases he
  | heartbeat now =>
    rw [step_heartbeat hst]
    exact h.heartbeat_left h₁ ht
  | upgrade now =>
    obtain ⟨challengeLog, verifyLog, rfl⟩ := upgrade_fits h₁ hcap hst
    refine ⟨h.rest, h.challenges, fun m => ?_⟩
    rw [m.lastCallAt_logs s₁]
    exact h.calls m

/-- and so does one of the other. -/
theorem Similar.silent_right (h : Similar t s₁ s₂) (h₂ : CanisterRun tr s₂)
    (hcap : s₁.leafIndexByProperty.keys.card ≤ 2 ^ treeDepth) (hst : Step s₂ e s') (he : e.callInput = none)
    (ht : e.time ≤ t) : Similar t s₁ s' := by
  cases e with
  | call => cases he
  | heartbeat now =>
    rw [step_heartbeat hst]
    exact h.heartbeat_right h₂ ht
  | upgrade now =>
    rw [h.agree.leafIndexByProperty] at hcap
    obtain ⟨challengeLog, verifyLog, rfl⟩ := upgrade_fits h₂ hcap hst
    refine ⟨?_, h.challenges, fun m => ?_⟩
    · rw [← h.graft]
      rfl
    · rw [m.lastCallAt_logs s₂]
      exact h.calls m

end

/-! ## Two runs -/

/-- While both clocks run forward and the titles fit, the states are similar from the last of their times on,
and the calls so far match. -/
def Paired (tr₁ : Trace) (s₁ : State) (tr₂ : Trace) (s₂ : State) : Prop :=
  Clock tr₁ → Clock tr₂ → s₁.leafIndexByProperty.keys.card ≤ 2 ^ treeDepth →
    (∀ t, (∀ τ ∈ tr₁, τ.label.time ≤ t) → (∀ τ ∈ tr₂, τ.label.time ≤ t) → Similar t s₁ s₂) ∧
      List.Forall₂ Matches (calls tr₁) (calls tr₂)

theorem Event.time_lt (e : Event) : e.time < 2 ^ 63 := by
  cases e with
  | call _ _ now => exact now.lt
  | heartbeat now => exact now.lt
  | upgrade now => exact now.lt

theorem paired_run {tr₁ tr₂ : Trace} {s₁ s₂ : State} (h₁ : CanisterRun tr₁ s₁) (h₂ : CanisterRun tr₂ s₂)
    (hcalls : Run.observed Event.callInput tr₁ = Run.observed Event.callInput tr₂) : Paired tr₁ s₁ tr₂ s₂ := by
  refine h₁.lockstep h₂ hcalls ?_ ?_ ?_ ?_
  · intro _ _ _
    exact ⟨fun t _ _ => ⟨rfl, .refl _, fun _ => .refl _⟩, .nil⟩
  · intro tr₁ s₁ tr₂ s₂ e s' hr₁ hr₂ ih hst he hclock₁ hclock₂ hcap
    have hcap := (card_step (treeInv_reachable hr₁).keyed hst).trans hcap
    obtain ⟨hsim, hmatch⟩ := ih hclock₁.snoc.1 hclock₂ hcap
    refine ⟨fun t ht₁ ht₂ => ?_, by rwa [calls_silent he]⟩
    exact (hsim t (fun τ hτ => ht₁ τ (List.mem_append_left _ hτ)) ht₂).silent_left hr₁ hcap hst he
      (ht₁ _ (List.mem_append_right _ List.mem_cons_self))
  · intro tr₁ s₁ tr₂ s₂ e s' hr₁ hr₂ ih hst he hclock₁ hclock₂ hcap
    obtain ⟨hsim, hmatch⟩ := ih hclock₁ hclock₂.snoc.1 hcap
    refine ⟨fun t ht₁ ht₂ => ?_, by rwa [calls_silent he]⟩
    exact (hsim t ht₁ fun τ hτ => ht₂ τ (List.mem_append_left _ hτ)).silent_right hr₂ hcap hst he
      (ht₂ _ (List.mem_append_right _ List.mem_cons_self))
  · intro tr₁ s₁ tr₂ s₂ e₁ s₁' e₂ s₂' i hr₁ hr₂ ih hst₁ hst₂ he₁ he₂ hclock₁ hclock₂ hcap
    obtain ⟨hclock₁, hle₁⟩ := hclock₁.snoc
    obtain ⟨hclock₂, hle₂⟩ := hclock₂.snoc
    obtain ⟨hsim, hmatch⟩ := ih hclock₁ hclock₂ ((card_step (treeInv_reachable hr₁).keyed hst₁).trans hcap)
    -- both runs make the call at one time, from which on the states before it are similar
    obtain ⟨htime, hstep⟩ := matched_step (treeInv_reachable hr₁).keyed (treeInv_reachable hr₂).keyed hst₁ hst₂
      (input_of_callInput he₁) (input_of_callInput he₂)
    obtain ⟨hlast, hsim⟩ := hstep (hsim _ hle₁ fun τ hτ => htime ▸ hle₂ τ hτ)
    refine ⟨fun t ht₁ _ => hsim.mono (ht₁ _ (List.mem_append_right _ List.mem_cons_self)), ?_⟩
    rw [calls_call he₁, calls_call he₂]
    exact List.rel_append hmatch (.cons hlast .nil)

/-- Two runs with the same calls, whose clocks never run backwards and whose titles fit into the tree, answer
every call alike but for the text with which `verify` refuses an expired challenge, and agree after each of
them and in the end, whatever heartbeats and upgrades either has been through. -/
theorem upgrades_unobservable {tr₁ tr₂ : Trace} {s₁ s₂ : State} (h₁ : CanisterRun tr₁ s₁) (h₂ : CanisterRun tr₂ s₂)
    (hclock₁ : Clock tr₁) (hclock₂ : Clock tr₂) (hcap : s₁.leafIndexByProperty.keys.card ≤ 2 ^ treeDepth)
    (hcalls : Run.observed Event.callInput tr₁ = Run.observed Event.callInput tr₂) :
    List.Forall₂ Matches (calls tr₁) (calls tr₂) ∧ Agree s₁ s₂ := by
  obtain ⟨hsim, hmatch⟩ := paired_run h₁ h₂ hcalls hclock₁ hclock₂ hcap
  exact ⟨hmatch, (hsim _ (fun τ _ => τ.label.time_lt.le) fun τ _ => τ.label.time_lt.le).agree⟩

/-- An upgrade between two requests is not noticed. -/
theorem upgrades_unobservable_sample : ∃ tr₁ tr₂ s₁ s₂, CanisterRun tr₁ s₁ ∧ CanisterRun tr₂ s₂ ∧ tr₁.length = 2 ∧
    tr₂.length = 3 ∧ List.Forall₂ Matches (calls tr₁) (calls tr₂) ∧ Agree s₁ s₂ := by
  obtain ⟨challenge⟩ := exists_iteration (request freshState owner 0 1).lastChallengeCallAt
  obtain ⟨verify⟩ := exists_iteration (request freshState owner 0 1).lastVerifyCallAt
  have hupgrade := step_upgrade (treeInv_reachable requested_run).keyed timeZero challenge verify
  have hfree : (request freshState owner 0 1).lastChallengeCallAt.lookup registrar = none := rfl
  have hafter : (upgraded (request freshState owner 0 1) challenge.entries verify.entries).lastChallengeCallAt.lookup
      registrar = none := hfree
  have hnext {s : State} (h : s.lastChallengeCallAt.lookup registrar = none) :
      Step s (.call rejectAll registrar timeHour (.requestChallenge 1)
        (.challenge (.ok (viewOf s.nextChallengeId (issued s registrar timeHour.ns 1)))))
        (request s registrar timeHour.ns 1) :=
    step_request rejectAll 1 (by decide) (not_recent_of_none h)
  have h₁ := requested_run.snoc (hnext hfree)
  have h₂ := (requested_run.snoc hupgrade).snoc (hnext hafter)
  have hle : (0 : Int) ≤ timeHour.ns := timeHour.nonneg
  refine ⟨_, _, _, _, h₁, h₂, rfl, rfl, upgrades_unobservable h₁ h₂ (List.pairwise_pair.2 hle) ?_ ?_ ?_⟩
  · refine .cons (fun τ hτ => ?_) (List.pairwise_pair.2 hle)
    rcases List.mem_cons.1 hτ with rfl | hτ
    · exact timeZero.nonneg
    · rw [List.mem_singleton.1 hτ]
      exact hle
  · show (∅ : HashMap UInt64 ℕ).keys.card ≤ _
    rw [Finmap.keys_empty, Finset.card_empty]
    exact Nat.zero_le _
  · simp only [Run.observed_snoc, Event.callInput, Option.toList_none, Option.toList_some, List.append_nil]

end Yaqeen.Canister
