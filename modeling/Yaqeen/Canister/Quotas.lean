/-
How much a principal can make the canister do and hold. Calls of one principal that pass the throttle of
a method are kept apart by the minimal interval over the whole run, through pruning and upgrades, so any
window of time holds a bounded number of them; and as a challenge lives for five minutes only, no principal
ever holds more than 151 live ones.
-/
import Yaqeen.Canister.RateLimit
import Yaqeen.Canister.Challenges
import Yaqeen.Lib.Spacing

namespace Yaqeen.Canister

open FinMap Runs

/-! ## Calls kept apart -/

section

variable {m : Method} {tr : Trace} {s s' : State} {e : Event} {p : Principal} {t : Time}

/-- A call that passes comes no sooner than the minimal interval after the last one in the map. -/
theorem Method.Passed.unhurried (hk : Keyed s) (hst : Step s e s') (h : m.Passed e p t) :
    ¬ Recent (m.lastCallAt s) p t.ns := by
  intro hrec
  cases m with
  | requestChallenge =>
    obtain ⟨purpose, view, w, rfl⟩ := h
    cases step_change hk hst with
    | silent _ hr => cases hr
    | admins _ hc => cases hc
    | requested _ hno => exact hno hrec
  | verify =>
    obtain ⟨w, id, proofBytes, publicInputs, r, rfl, hno⟩ := h
    have hexec := step_call hst
    by_cases ha : p = Principal.anonymous
    · simp only [exec, verify_throttled (checkAndUpdateThrottle_anonymous ha)] at hexec
      cases hexec
      exact hno _ List.mem_cons_self rfl
    · simp only [exec, verify_throttled (checkAndUpdateThrottle_recent ha hrec)] at hexec
      cases hexec
      exact hno _ (List.mem_cons_of_mem _ List.mem_cons_self) rfl

/-- Two calls of a run that pass are the minimal interval apart. -/
theorem passed_apart (h : CanisterRun tr s) (hclock : Clock tr) {i j : ℕ} {τ τ' : Transition State Event} {t' : Time}
    (hij : i < j) (hi : tr[i]? = some τ) (hj : tr[j]? = some τ') (hp : m.Passed τ.label p t)
    (hp' : m.Passed τ'.label p t') : t.ns + minCallIntervalNs ≤ t'.ns := by
  obtain ⟨hbefore, hst⟩ := h.before hj
  have hno := hp'.unhurried (treeInv_reachable hbefore).keyed hst
  rw [recent_iff m hbefore (hclock.sublist (List.take_sublist j tr)) fun τ'' hτ'' => ?_] at hno
  · by_contra hlt
    have hmem : τ ∈ tr.take j := by
      refine List.mem_of_getElem? (i := i) ?_
      rw [List.getElem?_take_of_lt hij, hi]
    exact hno ⟨τ, hmem, t, hp, by omega⟩
  · have hle := hclock.take_le hj τ'' hτ''
    rwa [hp'.time] at hle

/-- When the transition at a position happened. -/
def timeAt (tr : Trace) (i : ℕ) : Int := (tr[i]?).elim 0 fun τ => τ.label.time

theorem timeAt_of {i : ℕ} {τ : Transition State Event} (hi : tr[i]? = some τ) : timeAt tr i = τ.label.time := by
  unfold timeAt
  rw [hi, Option.elim_some]

/-- The positions of the calls of a principal that pass the throttle of a method in a window of time. -/
def passesIn (m : Method) (tr : Trace) (p : Principal) (start length : Int) : Set ℕ :=
  {i | ∃ τ t, tr[i]? = some τ ∧ m.Passed τ.label p t ∧ start ≤ t.ns ∧ t.ns ≤ start + length}

end

theorem window_bounded {tr : Trace} {s : State} (h : CanisterRun tr s) (hclock : Clock tr) (m : Method) (p : Principal)
    (start : Int) {length : Int} (hlength : 0 ≤ length) :
    ((passesIn m tr p start length).ncard : Int) ≤ length / minCallIntervalNs + 1 := by
  refine Spacing.ncard_le (timeAt tr) start (by norm_num) hlength ?_ ?_
  · rintro i ⟨τ, t, hi, hp, hwindow⟩
    rw [timeAt_of hi, hp.time]
    exact hwindow
  · rintro i ⟨τ, t, hi, hp, -⟩ j ⟨τ', t', hj, hp', -⟩ hne
    rw [timeAt_of hi, timeAt_of hj, hp.time, hp'.time]
    rcases Nat.lt_or_gt_of_ne hne with hlt | hlt
    · exact .inl (passed_apart h hclock hlt hi hj hp hp')
    · exact .inr (passed_apart h hclock hlt hj hi hp' hp)

/-! ## Live challenges -/

/-- The ids of the challenges of a principal that it may still answer at `now`, or has answered. -/
def liveChallenges (s : State) (p : Principal) (now : Time) : Set UInt64 :=
  {id | ∃ c, s.challenges.lookup id = some c ∧ c.requester = p ∧ now.ns ≤ c.expiresAt}

/-- The id that the transition at a position issued. -/
def idAt (tr : Trace) (i : ℕ) : UInt64 :=
  match (tr[i]?).map Transition.label with
  | some (.call _ _ _ _ (.challenge (.ok view))) => view.challengeId
  | _ => 0

theorem live_bounded {tr : Trace} {s : State} (h : CanisterRun tr s) (hclock : Clock tr) (p : Principal)
    {now : Time} (hnow : ∀ τ ∈ tr, τ.label.time ≤ now.ns) : (liveChallenges s p now).ncard ≤ 151 := by
  have hfinite : (passesIn .requestChallenge tr p (now.ns - challengeTtlNs) challengeTtlNs).Finite := by
    refine (Set.finite_Iio tr.length).subset ?_
    rintro i ⟨τ, t, hi, -⟩
    exact (List.getElem?_eq_some_iff.1 hi).1
  -- each live challenge was issued by a request of the last five minutes
  have hlive : liveChallenges s p now ⊆
      idAt tr '' passesIn .requestChallenge tr p (now.ns - challengeTtlNs) challengeTtlNs := by
    rintro id ⟨c, hc, rfl, hexp⟩
    obtain ⟨r, rfl, hrc⟩ := issuedBefore_run h id c hc
    have hcaller : c.requester = r.caller := congrArg Challenge.requester hrc
    have hexpires : c.expiresAt = i64 (r.now.ns + challengeTtlNs) := congrArg Challenge.expiresAt hrc
    have hle : i64 (r.now.ns + challengeTtlNs) ≤ r.now.ns + challengeTtlNs :=
      i64_le (by have := r.now.nonneg; unfold challengeTtlNs; omega)
    have hpast := hnow _ (List.mem_of_getElem? r.occurs)
    obtain ⟨w, hreq⟩ := r.requested
    have htime : r.transition.label.time = r.now.ns := by rw [hreq]; rfl
    refine ⟨r.index, ⟨r.transition, r.now, r.occurs, ?_, by omega, by omega⟩, ?_⟩
    · rw [hcaller]
      exact ⟨r.purpose, r.view, r.requested⟩
    · unfold idAt
      rw [r.occurs, Option.map_some, hreq]
  have hbound := window_bounded h hclock .requestChallenge p (now.ns - challengeTtlNs)
    (show (0 : Int) ≤ challengeTtlNs by norm_num)
  have hcard := (Set.ncard_le_ncard hlive (hfinite.image _)).trans (Set.ncard_image_le hfinite)
  have hvalue : (challengeTtlNs / minCallIntervalNs + 1 : Int) = 151 := by decide
  rw [hvalue] at hbound
  omega

/-- In every run whose clock never runs backwards, whatever is pruned, restored or answered, a principal gets at
most one call for each full minimal interval of a window of time, and one more, past the throttle of a
method, and never has more than 151 unexpired challenges in the state. -/
theorem demand_bounded {tr : Trace} {s : State} (h : CanisterRun tr s) (hclock : Clock tr) (p : Principal) :
    (∀ (m : Method) (start length : Int), 0 ≤ length →
      ((passesIn m tr p start length).ncard : Int) ≤ length / minCallIntervalNs + 1) ∧
    ∀ now : Time, (∀ τ ∈ tr, τ.label.time ≤ now.ns) → (liveChallenges s p now).ncard ≤ 151 :=
  ⟨fun m start _ hlength => window_bounded h hclock m p start hlength, fun _ hnow => live_bounded h hclock p hnow⟩

/-- The time of the `n`-th turn of an owner who asks whenever it may. -/
def burstTime (n : ℕ) : Time where
  ns := (n % 4000000000 * 2000000000 : ℕ)
  nonneg := Int.natCast_nonneg _
  lt := by omega

def burst : ℕ → State
  | 0 => freshState
  | n + 1 => request (burst n) owner (burstTime n).ns 1

theorem burstTime_ns {n : ℕ} (hn : n < 4000000000) : (burstTime n).ns = n * 2000000000 := by
  show ((n % 4000000000 * 2000000000 : ℕ) : Int) = n * 2000000000
  omega

theorem burst_step {n : ℕ} (hn : n < 4000000000) :
    Step (burst n) (.call rejectAll owner (burstTime n) (.requestChallenge 1)
      (.challenge (.ok (viewOf (burst n).nextChallengeId (issued (burst n) owner (burstTime n).ns 1)))))
      (burst (n + 1)) := by
  refine step_request rejectAll 1 (by decide) ?_
  rintro ⟨last, hlast, hlt⟩
  cases n with
  | zero => cases hlast
  | succ n =>
    have hlast : ((burst n).lastChallengeCallAt.insert owner (burstTime n).ns).lookup owner = some last := hlast
    rw [lookup_insert, if_pos rfl, burstTime_ns (by omega)] at hlast
    rw [burstTime_ns hn, ← Option.some.inj hlast, i64_of_range (by push_cast; omega) (by push_cast; omega)] at hlt
    unfold minCallIntervalNs at hlt
    push_cast at hlt
    omega

theorem burst_run : ∀ n ≤ 4000000000, ∃ tr, CanisterRun tr (burst n) ∧ Clock tr ∧
    ∀ τ ∈ tr, τ.label.time + 2000000000 ≤ n * 2000000000
  | 0, _ => ⟨[], .nil, .nil, fun _ hτ => by cases hτ⟩
  | n + 1, hn => by
    obtain ⟨tr, hrun, hclock, hall⟩ := burst_run n (Nat.le_of_succ_le hn)
    have hns := burstTime_ns (n := n) hn
    refine ⟨_, hrun.snoc (burst_step hn), List.pairwise_append.2 ⟨hclock, List.pairwise_singleton _ _, ?_⟩, ?_⟩
    · intro τ hτ τ' hτ'
      have := hall τ hτ
      rw [List.mem_singleton.1 hτ']
      show τ.label.time ≤ (burstTime n).ns
      omega
    · intro τ hτ
      push_cast
      rcases List.mem_append.1 hτ with hτ | hτ
      · have := hall τ hτ
        omega
      · rw [List.mem_singleton.1 hτ]
        show (burstTime n).ns + 2000000000 ≤ _
        omega

theorem burst_nextChallengeId : ∀ n, (burst n).nextChallengeId = UInt64.ofNat n
  | 0 => rfl
  | n + 1 => by
    show (burst n).nextChallengeId + 1 = UInt64.ofNat (n + 1)
    rw [burst_nextChallengeId n, UInt64.ofNat_add n 1]
    rfl

theorem burst_challenges : ∀ n ≤ 2 ^ 64, ∀ k < n, (burst n).challenges.lookup (UInt64.ofNat k) =
    some (issued (burst k) owner (burstTime k).ns 1)
  | n + 1, hn, k, hk => by
    have hinsert : (burst (n + 1)).challenges =
        (burst n).challenges.insert (burst n).nextChallengeId (issued (burst n) owner (burstTime n).ns 1) := rfl
    rw [hinsert, lookup_insert, burst_nextChallengeId]
    by_cases hkn : k = n
    · rw [hkn, if_pos rfl]
    · have hne : UInt64.ofNat k ≠ UInt64.ofNat n := by
        intro heq
        have := congrArg UInt64.toNat heq
        rw [UInt64.toNat_ofNat', UInt64.toNat_ofNat', Nat.mod_eq_of_lt (by omega), Nat.mod_eq_of_lt (by omega)] at this
        exact hkn this
      rw [if_neg hne]
      exact burst_challenges n (Nat.le_of_succ_le hn) k (by omega)

/-- The bound is reached. -/
theorem demand_bounded_burst : (liveChallenges (burst 151) owner (burstTime 150)).ncard = 151 := by
  obtain ⟨tr, hrun, hclock, hall⟩ := burst_run 151 (by norm_num)
  have hnow : (burstTime 150).ns = 300000000000 := burstTime_ns (by norm_num)
  have hpast : ∀ τ ∈ tr, τ.label.time ≤ (burstTime 150).ns := by
    intro τ hτ
    have := hall τ hτ
    generalize (burstTime 150).ns = t at hnow ⊢
    omega
  have hle := (demand_bounded hrun hclock owner).2 (burstTime 150) hpast
  have hlive : (fun k : ℕ => UInt64.ofNat k) '' Set.Iio 151 ⊆ liveChallenges (burst 151) owner (burstTime 150) := by
    rintro _ ⟨k, hk, rfl⟩
    have hk : k < 151 := hk
    refine ⟨_, burst_challenges 151 (by norm_num) k hk, rfl, ?_⟩
    unfold issued
    rw [hnow, burstTime_ns (by omega)]
    simp only
    rw [i64_of_range (by unfold challengeTtlNs; omega) (by unfold challengeTtlNs; omega)]
    unfold challengeTtlNs
    omega
  have hinj : Set.InjOn (fun k : ℕ => UInt64.ofNat k) (Set.Iio 151) := by
    intro k hk k' hk' heq
    have hk : k < 151 := hk
    have hk' : k' < 151 := hk'
    have := congrArg UInt64.toNat heq
    rwa [UInt64.toNat_ofNat', UInt64.toNat_ofNat', Nat.mod_eq_of_lt (by omega), Nat.mod_eq_of_lt (by omega)] at this
  have hcount := Set.ncard_le_ncard hlive (Set.toFinite _)
  rw [hinj.ncard_image, Set.ncard_Iio_nat] at hcount
  exact Nat.le_antisymm hle hcount

end Yaqeen.Canister
