/-
Pruning challenges, over whole runs: the stored ids are an interval that starts at the cursor, and their
expiries follow their ids, as long as no expiry leaves the `i64` range. So the scan of a heartbeat, which
stops at the first challenge that has not expired, removes the oldest expired ones and nothing else.
-/
import Yaqeen.Canister.Challenges

namespace Yaqeen.Canister

open Air FinMap Runs

/-! ## Stored challenges as a queue -/

/-- The stored ids run from the cursor up to the next id, with expiries in the same order. -/
structure Queue (s : State) : Prop where
  cursor : s.oldestUnprunedChallengeId.toNat ≤ s.nextChallengeId.toNat
  stored : ∀ id, (∃ c, s.challenges.lookup id = some c) ↔
    s.oldestUnprunedChallengeId.toNat ≤ id.toNat ∧ id.toNat < s.nextChallengeId.toNat
  ordered : ∀ id id' c c', s.challenges.lookup id = some c → s.challenges.lookup id' = some c' →
    id.toNat ≤ id'.toNat → c.expiresAt ≤ c'.expiresAt

/-- What a scan of at most `n` challenges at `nowNs` comes to. -/
structure Scanned (nowNs : Int) (n : ℕ) (s s' : State) : Prop where
  next : s'.nextChallengeId = s.nextChallengeId
  forward : s.oldestUnprunedChallengeId.toNat ≤ s'.oldestUnprunedChallengeId.toNat
  bounded : s'.oldestUnprunedChallengeId.toNat ≤ s.nextChallengeId.toNat
  capped : s'.oldestUnprunedChallengeId.toNat ≤ s.oldestUnprunedChallengeId.toNat + n
  lookup : ∀ id, s'.challenges.lookup id =
    if id.toNat < s'.oldestUnprunedChallengeId.toNat then none else s.challenges.lookup id
  expired : ∀ id c, s.challenges.lookup id = some c → id.toNat < s'.oldestUnprunedChallengeId.toNat →
    c.expiresAt < nowNs
  stopped : s'.oldestUnprunedChallengeId.toNat < s.oldestUnprunedChallengeId.toNat + n →
    ∀ id c, s.challenges.lookup id = some c → s'.oldestUnprunedChallengeId.toNat ≤ id.toNat → nowNs ≤ c.expiresAt

section

variable {s s' : State} {nowNs : Int} {n : ℕ}

theorem Queue.of_eq (h : Queue s) (hchallenges : s'.challenges = s.challenges)
    (hnext : s'.nextChallengeId = s.nextChallengeId)
    (holdest : s'.oldestUnprunedChallengeId = s.oldestUnprunedChallengeId) : Queue s' := by
  refine ⟨?_, ?_, ?_⟩
  · rw [hnext, holdest]
    exact h.cursor
  · rw [hchallenges, hnext, holdest]
    exact h.stored
  · rw [hchallenges]
    exact h.ordered

/-- A scan leaves a queue. -/
theorem Scanned.queue (h : Scanned nowNs n s s') (hq : Queue s) : Queue s' := by
  refine ⟨by rw [h.next]; exact h.bounded, fun id => ?_, fun id id' c c' hc hc' => ?_⟩
  · have hstored := hq.stored id
    have hforward := h.forward
    rw [h.lookup, h.next]
    by_cases hid : id.toNat < s'.oldestUnprunedChallengeId.toNat
    · rw [if_pos hid]
      constructor
      · rintro ⟨c, hc⟩
        cases hc
      · intro hle
        omega
    · rw [if_neg hid, hstored]
      omega
  · rw [h.lookup] at hc hc'
    split at hc
    · cases hc
    · split at hc'
      · cases hc'
      · exact hq.ordered id id' c c' hc hc'

/-- A scan that stops at once. -/
theorem Scanned.stay (hq : Queue s)
    (hstop : ∀ id c, s.challenges.lookup id = some c → n ≠ 0 → nowNs ≤ c.expiresAt) : Scanned nowNs n s s where
  next := rfl
  forward := le_rfl
  bounded := hq.cursor
  capped := Nat.le_add_right _ _
  lookup id := by
    split
    · rename_i hid
      refine Option.eq_none_iff_forall_not_mem.2 fun c hc => ?_
      have := (hq.stored id).1 ⟨c, hc⟩
      omega
    · rfl
  expired id c hc hid := by
    have := (hq.stored id).1 ⟨c, hc⟩
    omega
  stopped hlt id c hc _ := hstop id c hc (by omega)

/-- A scan continued is a scan. -/
theorem Scanned.trans {s₁ : State} {m : ℕ} (h : Scanned nowNs m s s₁) (h' : Scanned nowNs n s₁ s') :
    Scanned nowNs (m + n) s s' := by
  have hforward := h.forward
  have hforward' := h'.forward
  have hcapped := h.capped
  have hcapped' := h'.capped
  refine ⟨h'.next.trans h.next, by omega, h.next ▸ h'.bounded, by omega, fun id => ?_, fun id c hc hid => ?_,
    fun hlt id c hc hid => ?_⟩
  · rw [h'.lookup, h.lookup]
    by_cases hid : id.toNat < s'.oldestUnprunedChallengeId.toNat
    · rw [if_pos hid, if_pos hid]
    · rw [if_neg hid, if_neg hid, if_neg (by omega)]
  · by_cases hid₁ : id.toNat < s₁.oldestUnprunedChallengeId.toNat
    · exact h.expired id c hc hid₁
    · exact h'.expired id c (by rw [h.lookup, if_neg hid₁, hc]) hid
  · -- a first scan that stopped early has left nothing expired, a capped one hands over at its cursor
    by_cases hstop : s₁.oldestUnprunedChallengeId.toNat < s.oldestUnprunedChallengeId.toNat + m
    · exact h.stopped hstop id c hc (by omega)
    · exact h'.stopped (by omega) id c (by rw [h.lookup, if_neg (by omega), hc]) hid

/-- Removing the challenge at the cursor, once expired, is a scan of one. -/
theorem scanned_oldest (hq : Queue s) {c : Challenge} (hc : s.challenges.lookup s.oldestUnprunedChallengeId = some c)
    (hexp : c.expiresAt < nowNs) : Scanned nowNs 1 s { s with
      challenges := s.challenges.erase s.oldestUnprunedChallengeId
      oldestUnprunedChallengeId := s.oldestUnprunedChallengeId + 1 } := by
  have hlt := ((hq.stored _).1 ⟨c, hc⟩).2
  -- the cursor is below the next id, so it does not wrap around
  have hsucc : (s.oldestUnprunedChallengeId + 1).toNat = s.oldestUnprunedChallengeId.toNat + 1 := by
    have := s.nextChallengeId.toNat_lt
    rw [UInt64.toNat_add]
    show (_ + 1) % _ = _
    exact Nat.mod_eq_of_lt (by omega)
  refine ⟨rfl, ?_, ?_, ?_, fun id => ?_, fun id c' hc' hid => ?_, fun hid => ?_⟩
  · show _ ≤ (s.oldestUnprunedChallengeId + 1).toNat
    omega
  · show (s.oldestUnprunedChallengeId + 1).toNat ≤ _
    omega
  · show (s.oldestUnprunedChallengeId + 1).toNat ≤ _
    omega
  · show (s.challenges.erase s.oldestUnprunedChallengeId).lookup id =
      if id.toNat < (s.oldestUnprunedChallengeId + 1).toNat then none else s.challenges.lookup id
    rw [lookup_erase, hsucc]
    by_cases hid : id = s.oldestUnprunedChallengeId
    · rw [if_pos hid, if_pos (by rw [hid]; omega)]
    · rw [if_neg hid]
      split
      · rename_i hle
        have hne : id.toNat ≠ s.oldestUnprunedChallengeId.toNat := fun h => hid (UInt64.toNat_inj.1 h)
        refine Option.eq_none_iff_forall_not_mem.2 fun c' hc' => ?_
        have := (hq.stored id).1 ⟨c', hc'⟩
        omega
      · rfl
  · have hid : id.toNat < (s.oldestUnprunedChallengeId + 1).toNat := hid
    have := (hq.stored id).1 ⟨c', hc'⟩
    have heq : id = s.oldestUnprunedChallengeId := UInt64.toNat_inj.1 (by omega)
    subst heq
    rw [hc] at hc'
    cases hc'
    exact hexp
  · have hid : (s.oldestUnprunedChallengeId + 1).toNat < _ := hid
    omega

theorem pruneChallenges_scanned (nowNs : Int) : ∀ n s, Queue s → Scanned nowNs n s (pruneChallenges nowNs n s)
  | 0, s, hq => .stay hq fun _ _ _ h => absurd rfl h
  | n + 1, s, hq => by
    unfold pruneChallenges
    by_cases hend : s.oldestUnprunedChallengeId ≥ s.nextChallengeId
    · rw [if_pos hend]
      refine .stay hq fun id c hc _ => ?_
      have := (hq.stored id).1 ⟨c, hc⟩
      have := UInt64.le_iff_toNat_le.1 hend
      omega
    rw [if_neg hend]
    have hlt : s.oldestUnprunedChallengeId.toNat < s.nextChallengeId.toNat := by
      rw [ge_iff_le, UInt64.le_iff_toNat_le] at hend
      omega
    -- the challenge at the cursor is stored: in a queue the scan meets no gap
    obtain ⟨c, hc⟩ := (hq.stored s.oldestUnprunedChallengeId).2 ⟨le_rfl, hlt⟩
    simp only [hc]
    by_cases hexp : nowNs > c.expiresAt
    · rw [if_pos hexp, Nat.add_comm]
      have hfirst := scanned_oldest hq hc hexp
      exact hfirst.trans (pruneChallenges_scanned nowNs n _ (hfirst.queue hq))
    · rw [if_neg hexp]
      refine .stay hq fun id c' hc' _ => ?_
      have := hq.ordered _ id c c' hc hc' ((hq.stored id).1 ⟨c', hc'⟩).1
      omega

theorem heartbeat_scanned (hq : Queue s) (now : Time) :
    Scanned now.ns maxPrunePerHeartbeat s (heartbeatImpl s now.ns) := by
  have h := pruneChallenges_scanned now.ns maxPrunePerHeartbeat s hq
  exact ⟨h.next, h.forward, h.bounded, h.capped, h.lookup, h.expired, h.stopped⟩

end

/-! ## The queue over a run -/

/-- The expiry of every challenge issued fits an `i64`. -/
def ExpiriesFit (tr : Trace) : Prop :=
  ∀ τ ∈ tr, ∀ caller now purpose view, Requested τ.label caller now purpose view → now.ns + challengeTtlNs < 2 ^ 63

/-- A stored challenge expires no later than one issued now. -/
theorem expiresAt_le {tr : Trace} {s : State} (h : CanisterRun tr s) (hfit : ExpiriesFit tr) {now : Time}
    (hnow : ∀ τ ∈ tr, τ.label.time ≤ now.ns) {id : UInt64} {c : Challenge} (hc : s.challenges.lookup id = some c) :
    c.expiresAt ≤ now.ns + challengeTtlNs := by
  obtain ⟨r, -, hrc⟩ := issuedBefore_run h id c hc
  have hmem := List.mem_of_getElem? r.occurs
  have hlt := hfit _ hmem _ _ _ _ r.requested
  have hle := hnow _ hmem
  obtain ⟨w, hlabel⟩ := r.requested
  rw [hlabel] at hle
  have hle : r.now.ns ≤ now.ns := hle
  have h0 := r.now.nonneg
  have hexp : c.expiresAt = i64 (r.now.ns + challengeTtlNs) := by rw [hrc]; rfl
  unfold challengeTtlNs at hlt hexp ⊢
  rw [hexp, i64_of_range (by omega) hlt]
  omega

/-- A new challenge joins the queue at its end. -/
theorem Queue.request {s : State} (hq : Queue s) {caller : Principal} {now : Time} {purpose : UInt64}
    (hnext : (s.nextChallengeId + 1).toNat = s.nextChallengeId.toNat + 1)
    (hexp : ∀ id c, s.challenges.lookup id = some c → c.expiresAt ≤ i64 (now.ns + challengeTtlNs)) :
    Queue (request s caller now.ns purpose) := by
  have hcursor := hq.cursor
  have hlook (id : UInt64) : (Canister.request s caller now.ns purpose).challenges.lookup id =
      if id = s.nextChallengeId then some (issued s caller now.ns purpose) else s.challenges.lookup id :=
    lookup_insert _ _ _ _
  refine ⟨?_, fun id => ?_, fun id id' c c' hc hc' hle => ?_⟩
  · show _ ≤ (s.nextChallengeId + 1).toNat
    exact hnext ▸ Nat.le_succ_of_le hcursor
  · show _ ↔ _ ∧ id.toNat < (s.nextChallengeId + 1).toNat
    rw [hlook, hnext]
    by_cases hid : id = s.nextChallengeId
    · subst hid
      rw [if_pos rfl]
      exact ⟨fun _ => ⟨hcursor, Nat.lt_succ_self _⟩, fun _ => ⟨_, rfl⟩⟩
    · have hne : id.toNat ≠ s.nextChallengeId.toNat := fun h => hid (UInt64.toNat_inj.1 h)
      rw [if_neg hid, hq.stored]
      show _ ↔ s.oldestUnprunedChallengeId.toNat ≤ _ ∧ _
      omega
  · rw [hlook] at hc hc'
    split at hc'
    · cases hc'
      split at hc
      · cases hc
        exact le_rfl
      · exact hexp id c hc
    · rename_i hid'
      have hlt' := ((hq.stored id').1 ⟨c', hc'⟩).2
      split at hc
      · rename_i hid
        rw [hid] at hle
        omega
      · exact hq.ordered id id' c c' hc hc' hle

/-- An accepted proof changes no expiry. -/
theorem Queue.accept {s : State} (hq : Queue s) {caller : Principal} {nowNs : Int} {id : UInt64} {c : Challenge}
    {v : BaseElement} (hc : s.challenges.lookup id = some c) : Queue (accept s caller nowNs id c v) := by
  have hlook (id' : UInt64) : (Canister.accept s caller nowNs id c v).challenges.lookup id' =
      if id' = id then some { c with consumed := true } else s.challenges.lookup id' := lookup_insert _ _ _ _
  have hsame (id' : UInt64) (c' : Challenge) (h : (Canister.accept s caller nowNs id c v).challenges.lookup id' = some c') :
      ∃ c₀, s.challenges.lookup id' = some c₀ ∧ c₀.expiresAt = c'.expiresAt := by
    rw [hlook] at h
    split at h
    · rename_i hid
      cases h
      exact ⟨c, hid ▸ hc, rfl⟩
    · exact ⟨c', h, rfl⟩
  refine ⟨hq.cursor, fun id' => ?_, fun id₁ id₂ c₁ c₂ h₁ h₂ hle => ?_⟩
  · refine Iff.trans ⟨?_, ?_⟩ (hq.stored id')
    · rintro ⟨c', h⟩
      obtain ⟨c₀, h₀, -⟩ := hsame id' c' h
      exact ⟨c₀, h₀⟩
    · rintro ⟨c', h⟩
      rw [hlook]
      split
      · exact ⟨_, rfl⟩
      · exact ⟨c', h⟩
  · obtain ⟨d₁, hd₁, he₁⟩ := hsame id₁ c₁ h₁
    obtain ⟨d₂, hd₂, he₂⟩ := hsame id₂ c₂ h₂
    rw [← he₁, ← he₂]
    exact hq.ordered id₁ id₂ d₁ d₂ hd₁ hd₂ hle

theorem queue_run {tr : Trace} {s : State} (h : CanisterRun tr s) (hclock : Clock tr) (hcount : issuedCount tr < 2 ^ 64)
    (hfit : ExpiriesFit tr) : Queue s := by
  refine h.invariant_history (P := fun tr s => Clock tr → issuedCount tr < 2 ^ 64 → ExpiriesFit tr → Queue s)
    (fun _ _ _ => ⟨le_rfl, fun id => ⟨?_, ?_⟩, fun _ _ _ _ hc => by cases hc⟩) ?_ hclock hcount hfit
  · rintro ⟨c, hc⟩
    cases hc
  · rintro ⟨-, hlt⟩
    exact absurd hlt (Nat.not_lt_zero _)
  intro tr s e s' hr ih hst hclock hcount hfit
  have hfit' : ExpiriesFit tr := fun τ hτ => hfit τ (List.mem_append_left _ hτ)
  have hcount' : issuedCount tr < 2 ^ 64 := by
    rw [issuedCount_append] at hcount
    omega
  have hq := ih hclock.snoc.1 hcount' hfit'
  have hk := (treeInv_reachable hr).keyed
  cases step_change hk hst with
  | silent => exact hq
  | admins => exact hq.of_eq rfl rfl rfl
  | submitted =>
    obtain ⟨_, _, heq, -⟩ := submit_eq s _ _
    rw [heq]
    exact hq.of_eq rfl rfl rfl
  | @requested w caller now purpose =>
    have hnow : now.ns + challengeTtlNs < 2 ^ 63 :=
      hfit _ (List.mem_append_right _ List.mem_cons_self) caller now purpose _ ⟨w, rfl⟩
    have h0 := now.nonneg
    -- neither the next id nor the expiry wraps around
    refine hq.request ?_ fun id c hc => ?_
    · rw [issuedCount_append] at hcount
      have hcount : issuedCount tr + 1 < 2 ^ 64 := hcount
      rw [nextChallengeId_run hr, UInt64.toNat_add, UInt64.toNat_ofNat', Nat.mod_eq_of_lt hcount']
      exact Nat.mod_eq_of_lt hcount
    · have := expiresAt_le hr hfit' hclock.snoc.2 hc
      unfold challengeTtlNs at this hnow ⊢
      rwa [i64_of_range (by omega) hnow]
  | throttled => exact hq
  | failed => exact hq.of_eq rfl rfl rfl
  | verified _ hp => exact hq.accept hp.stored
  | heartbeat => exact (heartbeat_scanned hq _).queue hq
  | upgraded => exact hq.of_eq rfl rfl rfl

/-! ## What a heartbeat removes -/

/-- The ids of the stored challenges that have expired. -/
def expiredIds (s : State) (nowNs : Int) : Finset UInt64 :=
  s.challenges.keys.filter fun id => ∃ c ∈ s.challenges.lookup id, c.expiresAt < nowNs

/-- The ids whose challenges are stored in the first state only. -/
def removedIds (s s' : State) : Finset UInt64 := s.challenges.keys \ s'.challenges.keys

/-- A heartbeat removes the expired challenges with the smallest ids, as many as its cap allows, and changes
no other challenge. -/
structure RemovesOldest (s : State) (now : Time) : Prop where
  expired : removedIds s (heartbeatImpl s now.ns) ⊆ expiredIds s now.ns
  count : (removedIds s (heartbeatImpl s now.ns)).card = min (expiredIds s now.ns).card maxPrunePerHeartbeat
  smallest : ∀ id ∈ removedIds s (heartbeatImpl s now.ns),
    ∀ id' ∈ expiredIds s now.ns \ removedIds s (heartbeatImpl s now.ns), id < id'
  others : ∀ id ∉ removedIds s (heartbeatImpl s now.ns),
    (heartbeatImpl s now.ns).challenges.lookup id = s.challenges.lookup id

/-- A set of ids that is an interval has as many elements as the interval is long. -/
theorem card_of_interval {ids : Finset UInt64} {a b : ℕ} (h : ∀ id, id ∈ ids ↔ a ≤ id.toNat ∧ id.toNat < b)
    (hb : b ≤ 2 ^ 64) : ids.card = b - a := by
  have himage : ids.image UInt64.toNat = Finset.Ico a b := by
    ext n
    rw [Finset.mem_image, Finset.mem_Ico]
    constructor
    · rintro ⟨id, hid, rfl⟩
      exact (h id).1 hid
    · intro hn
      have hto : (UInt64.ofNat n).toNat = n := by
        rw [UInt64.toNat_ofNat', Nat.mod_eq_of_lt (lt_of_lt_of_le hn.2 hb)]
      exact ⟨UInt64.ofNat n, (h _).2 (by rwa [hto]), hto⟩
  rw [← Finset.card_image_of_injective ids fun _ _ h => UInt64.toNat_inj.1 h, himage, Nat.card_Ico]

theorem mem_expiredIds {s : State} {nowNs : Int} {id : UInt64} :
    id ∈ expiredIds s nowNs ↔ ∃ c, s.challenges.lookup id = some c ∧ c.expiresAt < nowNs := by
  unfold expiredIds
  rw [Finset.mem_filter, mem_keys_iff]
  constructor
  · rintro ⟨-, c, hc, hexp⟩
    exact ⟨c, hc, hexp⟩
  · rintro ⟨c, hc, hexp⟩
    exact ⟨⟨c, hc⟩, c, hc, hexp⟩

section

variable {s s' : State} {nowNs : Int} {n : ℕ}

/-- What a scan removes is the interval its cursor has crossed. -/
theorem Scanned.mem_removedIds (h : Scanned nowNs n s s') (hq : Queue s) (id : UInt64) :
    id ∈ removedIds s s' ↔
      s.oldestUnprunedChallengeId.toNat ≤ id.toNat ∧ id.toNat < s'.oldestUnprunedChallengeId.toNat := by
  unfold removedIds
  have hbounded := h.bounded
  rw [Finset.mem_sdiff, mem_keys_iff, mem_keys_iff, hq.stored, (h.queue hq).stored, h.next]
  omega

theorem Scanned.card_removedIds (h : Scanned nowNs n s s') (hq : Queue s) : (removedIds s s').card =
    s'.oldestUnprunedChallengeId.toNat - s.oldestUnprunedChallengeId.toNat :=
  card_of_interval (h.mem_removedIds hq) (Nat.le_of_lt s'.oldestUnprunedChallengeId.toNat_lt)

theorem Scanned.removed_expired (h : Scanned nowNs n s s') (hq : Queue s) : removedIds s s' ⊆ expiredIds s nowNs := by
  intro id hid
  have hlt := (h.mem_removedIds hq id).1 hid
  obtain ⟨c, hc⟩ := (mem_keys_iff _ _).1 (Finset.mem_sdiff.1 hid).1
  exact mem_expiredIds.2 ⟨c, hc, h.expired id c hc hlt.2⟩

/-- A scan that stops before its cap has removed every expired challenge. -/
theorem Scanned.count (h : Scanned nowNs n s s') (hq : Queue s) :
    (removedIds s s').card = min (expiredIds s nowNs).card n := by
  have hcard := h.card_removedIds hq
  have hle := Finset.card_le_card (h.removed_expired hq)
  have hcapped := h.capped
  by_cases hstop : s'.oldestUnprunedChallengeId.toNat < s.oldestUnprunedChallengeId.toNat + n
  · -- nothing expired lies past the cursor
    have hall : expiredIds s nowNs ⊆ removedIds s s' := by
      intro id hid
      obtain ⟨c, hc, hexp⟩ := mem_expiredIds.1 hid
      refine (h.mem_removedIds hq id).2 ⟨((hq.stored id).1 ⟨c, hc⟩).1, not_le.1 fun hid => ?_⟩
      have := h.stopped hstop id c hc hid
      omega
    have := Finset.card_le_card hall
    omega
  · omega

theorem removesOldest (hq : Queue s) (now : Time) : RemovesOldest s now := by
  have h := heartbeat_scanned hq now
  refine ⟨h.removed_expired hq, h.count hq, fun id hid id' hid' => ?_, fun id hid => ?_⟩
  · obtain ⟨hexp, hstay⟩ := Finset.mem_sdiff.1 hid'
    obtain ⟨c, hc, -⟩ := mem_expiredIds.1 hexp
    have hlt := (h.mem_removedIds hq id).1 hid
    have hstored := (hq.stored id').1 ⟨c, hc⟩
    rw [h.mem_removedIds hq] at hstay
    rw [UInt64.lt_iff_toNat_lt]
    omega
  · rw [h.lookup]
    split
    · rename_i hlt
      refine (Option.eq_none_iff_forall_not_mem.2 fun c hc => ?_).symm
      exact hid ((h.mem_removedIds hq id).2 ⟨((hq.stored id).1 ⟨c, hc⟩).1, hlt⟩)
    · rfl

/-- Ticks at times when every stored challenge has expired remove the cap each, until none is left. -/
theorem ticks_run {tr : Trace} (hq : Queue s) (h : Run Step s tr s')
    (hafter : ∀ τ ∈ tr, ∃ now : Time, τ.label = .heartbeat now ∧
      ∀ id c, s.challenges.lookup id = some c → c.expiresAt < now.ns) :
    Queue s' ∧ (∀ id c, s'.challenges.lookup id = some c → s.challenges.lookup id = some c) ∧
      s'.challenges.keys.card = s.challenges.keys.card - maxPrunePerHeartbeat * tr.length := by
  induction h with
  | nil => exact ⟨hq, fun _ _ hc => hc, by simp⟩
  | @snoc tr s₁ e s₂ hr hst ih =>
    obtain ⟨hq₁, hsub, hcard⟩ := ih fun τ hτ => hafter τ (List.mem_append_left _ hτ)
    obtain ⟨now, rfl, hnow⟩ := hafter _ (List.mem_append_right _ List.mem_cons_self)
    rw [step_heartbeat hst]
    have hscan := heartbeat_scanned hq₁ now
    have hlook (id : UInt64) (c : Challenge) (hc : (heartbeatImpl s₁ now.ns).challenges.lookup id = some c) :
        s₁.challenges.lookup id = some c := by
      rw [hscan.lookup] at hc
      split at hc
      · cases hc
      · exact hc
    refine ⟨hscan.queue hq₁, fun id c hc => hsub id c (hlook id c hc), ?_⟩
    -- all that is left has expired, so the tick removes as many as its cap allows
    have hall : expiredIds s₁ now.ns = s₁.challenges.keys := by
      refine Finset.filter_true_of_mem fun id hid => ?_
      obtain ⟨c, hc⟩ := (mem_keys_iff _ _).1 hid
      exact ⟨c, hc, hnow id c (hsub id c hc)⟩
    have hkeys : (heartbeatImpl s₁ now.ns).challenges.keys ⊆ s₁.challenges.keys := by
      intro id hid
      obtain ⟨c, hc⟩ := (mem_keys_iff _ _).1 hid
      exact (mem_keys_iff _ _).2 ⟨c, hlook id c hc⟩
    have hcount := hscan.count hq₁
    rw [hall] at hcount
    have hdiff := Finset.card_sdiff_add_card_eq_card hkeys
    have hremoved : (s₁.challenges.keys \ (heartbeatImpl s₁ now.ns).challenges.keys).card =
      min s₁.challenges.keys.card maxPrunePerHeartbeat := hcount
    rw [List.length_append, List.length_singleton, Nat.mul_add, Nat.mul_one]
    omega

end

/-- In every run whose clock never runs backwards, with fewer than `2^64` challenges issued and expiries that
fit an `i64`, the stored ids are the interval from the cursor to the next id, their expiries follow their
ids, a heartbeat removes exactly the oldest expired challenges up to its cap, and ticks after every
expiry remove as many each until none is left. -/
theorem heartbeat_prunes_oldest {tr : Trace} {s : State} (h : CanisterRun tr s) (hclock : Clock tr)
    (hcount : issuedCount tr < 2 ^ 64) (hfit : ExpiriesFit tr) :
    (∀ id, id ∈ s.challenges.keys ↔ s.oldestUnprunedChallengeId ≤ id ∧ id < s.nextChallengeId) ∧
    (∀ id id' c c', s.challenges.lookup id = some c → s.challenges.lookup id' = some c' → id ≤ id' →
      c.expiresAt ≤ c'.expiresAt) ∧
    (∀ now : Time, RemovesOldest s now) ∧
    ∀ tr' s', Run Step s tr' s' →
      (∀ τ ∈ tr', ∃ now : Time, τ.label = .heartbeat now ∧
        ∀ id c, s.challenges.lookup id = some c → c.expiresAt < now.ns) →
      s'.challenges.keys.card = s.challenges.keys.card - maxPrunePerHeartbeat * tr'.length := by
  have hq := queue_run h hclock hcount hfit
  refine ⟨fun id => ?_, fun id id' c c' hc hc' hle => hq.ordered id id' c c' hc hc' (UInt64.le_iff_toNat_le.1 hle),
    removesOldest hq, fun tr' s' h' hafter => (ticks_run hq h' hafter).2.2⟩
  rw [mem_keys_iff, hq.stored, UInt64.le_iff_toNat_le, UInt64.lt_iff_toNat_lt]

/-! ## Challenges expired and live -/

/-- The owner and the registrar have requested at once, and the owner again an hour later. -/
def mixedState : State := request (request (request freshState owner 0 1) registrar 0 1) owner timeHour.ns 1

def mixedTrace : Trace :=
  [requestTransition freshState, requestBy registrar timeZero (request freshState owner 0 1),
    requestBy owner timeHour (request (request freshState owner 0 1) registrar 0 1)]

theorem mixed_run : CanisterRun mixedTrace mixedState := by
  have hregistrar : ¬ Recent (request freshState owner 0 1).lastChallengeCallAt registrar timeZero.ns := by
    refine not_recent_of_none ?_
    show (freshState.lastChallengeCallAt.insert owner 0).lookup registrar = none
    rw [lookup_insert, if_neg (by decide)]
    rfl
  have howner : ¬ Recent (request (request freshState owner 0 1) registrar 0 1).lastChallengeCallAt owner timeHour.ns := by
    rintro ⟨last, hlast, hlt⟩
    have hlast : ((freshState.lastChallengeCallAt.insert owner 0).insert registrar 0).lookup owner = some last := hlast
    rw [lookup_insert, if_neg (by decide), lookup_insert, if_pos rfl] at hlast
    cases hlast
    exact absurd hlt (by decide)
  exact (requested_run.snoc (step_request rejectAll 1 (by decide) hregistrar)).snoc
    (step_request rejectAll 1 (by decide) howner)

theorem mixed_clock : Clock mixedTrace := by
  have hzero : (0 : Int) ≤ timeHour.ns := timeHour.nonneg
  exact .cons (List.forall_mem_cons.2 ⟨le_refl (0 : Int), List.forall_mem_singleton.2 hzero⟩)
    (List.pairwise_pair.2 hzero)

theorem mixed_fit : ExpiriesFit mixedTrace := by
  have htime : ∀ τ ∈ mixedTrace, τ.label.time + challengeTtlNs < 2 ^ 63 :=
    List.forall_mem_cons.2 ⟨by decide, List.forall_mem_cons.2 ⟨by decide, List.forall_mem_singleton.2 (by decide)⟩⟩
  rintro τ hτ caller now purpose view ⟨w, hlabel⟩
  have h := htime τ hτ
  rwa [hlabel] at h

theorem mixed_lookup (id : UInt64) : mixedState.challenges.lookup id =
    if id = 2 then some (issued (request (request freshState owner 0 1) registrar 0 1) owner timeHour.ns 1)
    else if id = 1 then some (issued (request freshState owner 0 1) registrar 0 1)
    else if id = 0 then some (issued freshState owner 0 1) else none := by
  show (((freshState.challenges.insert 0 (issued freshState owner 0 1)).insert 1
    (issued (request freshState owner 0 1) registrar 0 1)).insert 2
    (issued (request (request freshState owner 0 1) registrar 0 1) owner timeHour.ns 1)).lookup id = _
  rw [lookup_insert, lookup_insert, lookup_insert]
  rfl

/-- At the hour the first two have expired. -/
theorem mixed_expired : expiredIds mixedState timeHour.ns = {0, 1} := by
  ext id
  rw [mem_expiredIds, mixed_lookup, Finset.mem_insert, Finset.mem_singleton]
  constructor
  · rintro ⟨c, hc, hexp⟩
    split_ifs at hc with h2 h1 h0
    · cases hc
      exact absurd hexp (by decide)
    · exact .inr h1
    · exact .inl h0
  · rintro (rfl | rfl)
    · exact ⟨_, rfl, by decide⟩
    · exact ⟨_, rfl, by decide⟩

/-- A heartbeat at the hour removes those two and leaves the live one. -/
theorem heartbeat_prunes_oldest_sample : RemovesOldest mixedState timeHour ∧
    (removedIds mixedState (heartbeatImpl mixedState timeHour.ns)).card = 2 ∧
    (heartbeatImpl mixedState timeHour.ns).challenges.lookup 2 = mixedState.challenges.lookup 2 := by
  have h := (heartbeat_prunes_oldest mixed_run mixed_clock (by decide) mixed_fit).2.2.1 timeHour
  have hcount := h.count
  rw [mixed_expired] at hcount
  refine ⟨h, hcount, h.others 2 fun hremoved => ?_⟩
  have hexpired := h.expired hremoved
  rw [mixed_expired] at hexpired
  exact absurd hexpired (by decide)

/-! ## An expiry beyond the `i64` range -/

def timeLate : Time := ⟨2 ^ 63 - 400000000000, by decide, by decide⟩

def timeLater : Time := ⟨2 ^ 63 - 100000000000, by decide, by decide⟩

/-- Two requests in the last minutes that an `i64` can count; the second challenge's expiry wraps around. -/
def lateState : State := request (request freshState owner timeLate.ns 1) registrar timeLater.ns 1

theorem late_challenges : lateState.challenges.lookup 0 = some (issued freshState owner timeLate.ns 1) ∧
    lateState.challenges.lookup 1 = some (issued (request freshState owner timeLate.ns 1) registrar timeLater.ns 1) := by
  have hlook (id : UInt64) : lateState.challenges.lookup id =
      if id = 1 then some (issued (request freshState owner timeLate.ns 1) registrar timeLater.ns 1)
      else (freshState.challenges.insert 0 (issued freshState owner timeLate.ns 1)).lookup id := lookup_insert _ _ _ _
  rw [hlook, hlook, if_neg (by decide), if_pos rfl, lookup_insert, if_pos rfl]
  exact ⟨rfl, rfl⟩

/-- The scan stops at the first challenge and does not see that the second has expired. -/
theorem late_kept : (heartbeatImpl lateState timeLater.ns).challenges = lateState.challenges := by
  have hprune : pruneChallenges timeLater.ns maxPrunePerHeartbeat lateState = lateState := by
    unfold pruneChallenges
    rw [if_neg (by decide)]
    have hfirst : lateState.challenges.lookup lateState.oldestUnprunedChallengeId =
      some (issued freshState owner timeLate.ns 1) := late_challenges.1
    simp only [hfirst]
    exact if_neg (by decide)
  exact congrArg State.challenges hprune

/-- The expiries of the two challenges are out of order, and a heartbeat leaves the one that has expired. -/
theorem expiry_wraps_around : ∃ tr, CanisterRun tr lateState ∧ Clock tr ∧ issuedCount tr < 2 ^ 64 ∧
    (∃ c c', lateState.challenges.lookup 0 = some c ∧ lateState.challenges.lookup 1 = some c' ∧
      c'.expiresAt < c.expiresAt) ∧
    ¬ RemovesOldest lateState timeLater := by
  have hfirst : Step freshState _ (request freshState owner timeLate.ns 1) :=
    step_request rejectAll 1 (by decide) (not_recent_of_none rfl)
  have hsecond : Step (request freshState owner timeLate.ns 1) _ lateState :=
    step_request rejectAll 1 (by decide) (not_recent_of_none rfl)
  refine ⟨_, (Run.nil.snoc hfirst).snoc hsecond, List.pairwise_pair.2 (by decide), ?_,
    ⟨_, _, late_challenges.1, late_challenges.2, by decide⟩, fun h => ?_⟩
  · show 2 < 2 ^ 64
    norm_num
  · have hremoved : removedIds lateState (heartbeatImpl lateState timeLater.ns) = ∅ := by
      unfold removedIds
      rw [late_kept, Finset.sdiff_self]
    have hexpired : 1 ∈ expiredIds lateState timeLater.ns :=
      mem_expiredIds.2 ⟨_, late_challenges.2, by decide⟩
    have hcount := h.count
    rw [hremoved, Finset.card_empty] at hcount
    have := Finset.card_pos.2 ⟨_, hexpired⟩
    unfold maxPrunePerHeartbeat at hcount
    omega

end Yaqeen.Canister
