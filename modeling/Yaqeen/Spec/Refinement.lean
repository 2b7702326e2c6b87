/-
The canister refines the registry of the specification: every run has the events of a run of the
specification, replies included. So ticks, upgrades, the node table, the stored paths, the challenge
cursor and the throttle logs are invisible, and what the rules of the specification say of a call holds
of the call to the canister.
-/
import Yaqeen.Spec.Registry
import Yaqeen.Canister.Ledger
import Yaqeen.Canister.Authority
import Yaqeen.Lib.Simulation

namespace Yaqeen.Spec

open Air Canister FinMap Runs

/-! ## The relation -/

/-- The latest call of a principal that got past the throttle of a method. -/
structure LatestPassed (m : Method) (tr : Trace) (p : Principal) (o : Option Time) : Prop where
  passed : ∀ t, o = some t → ∃ τ ∈ tr, m.Passed τ.label p t
  latest : ∀ τ ∈ tr, ∀ t, m.Passed τ.label p t → ∃ t', o = some t' ∧ t.ns ≤ t'.ns

/-- The canister's record of a challenge. -/
def Issue.challenge (id : UInt64) (c : Issue) : Challenge :=
  ⟨registryId, c.root, c.purpose, id, c.timestamp, c.deadline, c.answered, c.requester⟩

/-- A challenge is stored as it is, or it is pruned and past its deadline. -/
def Stored (tr : Trace) (s : State) (a : Registry) (id : UInt64) : Prop :=
  s.challenges.lookup id = (a.issues[id.toNat]?).map (Issue.challenge id) ∨
    (s.challenges.lookup id = none ∧ ∃ c, a.issues[id.toNat]? = some c ∧ ∃ τ ∈ tr, c.deadline < τ.label.time)

structure Refines (tr : Trace) (s : State) (a : Registry) : Prop where
  admins : a.admins = s.admins.toFinset
  nodup : s.admins.Nodup
  titles : a.titles = titlesOf tr
  issues : s.nextChallengeId.toNat = a.issues.length
  challenges : ∀ id, Stored tr s a id
  spent : ∀ v, v ∈ a.spent ↔ s.nullifiers.lookup (feToString v) = some true
  lastCall : ∀ m p, LatestPassed m tr p (a.lastCall m p)

/-! ## The parts of a step -/

section

variable {m : Method} {tr : Trace} {p : Principal} {o : Option Time} {τ : Transition State Event}

theorem LatestPassed.idle (h : LatestPassed m tr p o) (hno : ∀ t, ¬ m.Passed τ.label p t) :
    LatestPassed m (tr ++ [τ]) p o where
  passed t ht := by
    obtain ⟨τ', hτ', hp⟩ := h.passed t ht
    exact ⟨τ', List.mem_append_left _ hτ', hp⟩
  latest τ' hτ' t hp := by
    rcases List.mem_append.1 hτ' with hτ' | hτ'
    · exact h.latest τ' hτ' t hp
    · rw [List.mem_singleton.1 hτ'] at hp
      exact absurd hp (hno t)

/-- A call that passes is the latest one. -/
theorem LatestPassed.passes {t : Time} (hclock : Clock (tr ++ [τ])) (hp : m.Passed τ.label p t) :
    LatestPassed m (tr ++ [τ]) p (some t) where
  passed t' ht := by
    cases ht
    exact ⟨τ, List.mem_append_right _ List.mem_cons_self, hp⟩
  latest τ' hτ' t' hp' := by
    refine ⟨t, rfl, ?_⟩
    rcases List.mem_append.1 hτ' with hτ' | hτ'
    · have := hclock.snoc.2 τ' hτ'
      rwa [hp'.time, hp.time] at this
    · rw [List.mem_singleton.1 hτ'] at hp'
      rw [(hp'.unique hp).2]

end

section

variable {tr : Trace} {s s' : State} {a : Registry} {e : Event}

theorem Stored.keep {id : UInt64} (h : Stored tr s a id) (s' : State)
    (hlook : s'.challenges.lookup id = s.challenges.lookup id ∨
      (s'.challenges.lookup id = none ∧ ∃ c, s.challenges.lookup id = some c ∧ c.expiresAt < e.time)) :
    Stored (tr ++ [⟨s, e, s'⟩]) s' a id := by
  have hlast : (⟨s, e, s'⟩ : Transition State Event) ∈ tr ++ [⟨s, e, s'⟩] := List.mem_append_right _ List.mem_cons_self
  rcases hlook with heq | ⟨hnone, c, hc, hexp⟩
  · rcases h with h | ⟨h, c, hc, τ, hτ, hlate⟩
    · exact .inl (heq.trans h)
    · exact .inr ⟨heq.trans h, c, hc, τ, List.mem_append_left _ hτ, hlate⟩
  · rcases h with h | ⟨h, -⟩
    · rw [hc] at h
      obtain ⟨c', hc', rfl⟩ := Option.map_eq_some_iff.1 h.symm
      exact .inr ⟨hnone, c', hc', _, hlast, hexp⟩
    · rw [hc] at h
      cases h

/-- A step that passes no throttle, issues and answers nothing. -/
theorem Refines.frame (h : Refines tr s a) (s' : State) (hpass : ∀ m p t, ¬ Method.Passed m e p t)
    (hid : s'.nextChallengeId = s.nextChallengeId)
    (hlook : ∀ id, s'.challenges.lookup id = s.challenges.lookup id ∨
      (s'.challenges.lookup id = none ∧ ∃ c, s.challenges.lookup id = some c ∧ c.expiresAt < e.time))
    (hnull : s'.nullifiers = s.nullifiers) (hadmins : s'.admins.Nodup) :
    Refines (tr ++ [⟨s, e, s'⟩]) s'
      { a with admins := s'.admins.toFinset, titles := titlesOf (tr ++ [⟨s, e, s'⟩]) } where
  admins := rfl
  nodup := hadmins
  titles := rfl
  issues := hid ▸ h.issues
  challenges id := (h.challenges id).keep s' (hlook id)
  spent v := hnull ▸ h.spent v
  lastCall m p := (h.lastCall m p).idle (hpass m p)

/-- A step that sets the admin list at most. -/
theorem Refines.setAdmins (h : Refines tr s a) (hsub : e.submission = none) (hpass : ∀ m p t, ¬ Method.Passed m e p t)
    {admins : List Principal} (hadmins : admins.Nodup) :
    Refines (tr ++ [⟨s, e, { s with admins := admins }⟩]) { s with admins := admins }
      { a with admins := admins.toFinset } := by
  have hf := h.frame { s with admins := admins } hpass rfl (fun _ => .inl rfl) rfl hadmins
  rw [titlesOf_snoc, hsub, ← h.titles] at hf
  exact hf

theorem Refines.same (h : Refines tr s a) (hsub : e.submission = none) (hpass : ∀ m p t, ¬ Method.Passed m e p t) :
    Refines (tr ++ [⟨s, e, s⟩]) s a := by
  have hs := h.setAdmins hsub hpass h.nodup
  rwa [← h.admins] at hs

/-- The specification answers a step of the canister. -/
def Answered (tr : Trace) (s : State) (a : Registry) (e : Event) (s' : State) : Prop :=
  ∃ a', Step a e a' ∧ Refines (tr ++ [⟨s, e, s'⟩]) s' a'

end

/-! ## Calls of admins -/

section

variable {tr : Trace} {s : State} {a : Registry} (h : Refines tr s a) (w : Winterfell) (caller : Principal) (now : Time)

include h

theorem Refines.mem_admins {p : Principal} : p ∈ a.admins ↔ isAdmin s p = true := by
  rw [h.admins, List.mem_toFinset, isAdmin_iff]

theorem Refines.bootstrapAdmin (b : Bool) (p : Principal) : Answered tr s a
    (.call w caller now (.bootstrapAdmin b p) (exec w s caller now.ns (.bootstrapAdmin b p)).1)
    (exec w s caller now.ns (.bootstrapAdmin b p)).2 := by
  have hempty : a.admins = ∅ ↔ s.admins = [] := by rw [h.admins, List.toFinset_eq_empty_iff]
  simp only [exec, bootstrapAdminImpl]
  split_ifs with hb hs
  · exact ⟨a, .bootstrapRefused (.inr fun he => hs (hempty.1 he)), h.same rfl fun m _ _ => m.not_passed rfl (.inl rfl)⟩
  · have hs := not_not.1 hs
    subst hb
    have hone : (s.admins ++ [p]).toFinset = {p} := by rw [hs]; rfl
    refine ⟨_, .bootstrapped (hempty.2 hs), ?_⟩
    rw [← hone]
    exact h.setAdmins rfl (fun m _ _ => m.not_passed rfl (.inl rfl)) (by rw [hs]; exact List.nodup_singleton p)
  · exact ⟨a, .bootstrapRefused (.inl (Bool.not_eq_true _ ▸ hb)), h.same rfl fun m _ _ => m.not_passed rfl (.inl rfl)⟩

theorem Refines.addAdmin (p : Principal) : Answered tr s a
    (.call w caller now (.addAdmin p) (exec w s caller now.ns (.addAdmin p)).1)
    (exec w s caller now.ns (.addAdmin p)).2 := by
  simp only [exec, addAdminImpl]
  split_ifs with hc hp
  · refine ⟨_, .added (h.mem_admins.2 hc), ?_⟩
    rw [Finset.insert_eq_of_mem (by rw [h.admins, List.mem_toFinset]; exact hp)]
    exact h.same rfl fun m _ _ => m.not_passed rfl (.inl rfl)
  · have hins : (s.admins ++ [p]).toFinset = insert p a.admins := by
      rw [h.admins]
      ext q
      simp
    refine ⟨_, .added (h.mem_admins.2 hc), ?_⟩
    rw [← hins]
    exact h.setAdmins rfl (fun m _ _ => m.not_passed rfl (.inl rfl)) (List.concat_eq_append ▸ h.nodup.concat hp)
  · exact ⟨a, .addRefused fun hm => hc (h.mem_admins.1 hm), h.same rfl fun m _ _ => m.not_passed rfl (.inl rfl)⟩

theorem Refines.removeAdmin (p : Principal) : Answered tr s a
    (.call w caller now (.removeAdmin p) (exec w s caller now.ns (.removeAdmin p)).1)
    (exec w s caller now.ns (.removeAdmin p)).2 := by
  have hcard : a.admins.card = s.admins.length := by rw [h.admins, List.toFinset_card_of_nodup h.nodup]
  simp only [exec, removeAdminImpl]
  split_ifs with hc hlen
  · exact ⟨a, .removeRefused (.inr (hcard.trans_le hlen)), h.same rfl fun m _ _ => m.not_passed rfl (.inl rfl)⟩
  · have herase : (s.admins.filter fun q => q ≠ p).toFinset = a.admins.erase p := by
      rw [h.admins]
      ext q
      simp [and_comm]
    refine ⟨_, .removed (h.mem_admins.2 hc) (by omega), ?_⟩
    rw [← herase]
    exact h.setAdmins rfl (fun m _ _ => m.not_passed rfl (.inl rfl)) (h.nodup.filter _)
  · exact ⟨a, .removeRefused (.inl fun hm => hc (h.mem_admins.1 hm)),
      h.same rfl fun m _ _ => m.not_passed rfl (.inl rfl)⟩

end

/-! ## The registry -/

section

variable {tr : Trace} {s : State} {a : Registry} (hr : CanisterRun tr s) (h : Refines tr s a) (w : Winterfell)
  (caller : Principal) (now : Time)

include hr h

theorem Refines.registers : Registers s a.titles := h.titles ▸ registers_run hr

theorem Refines.submitRecord (record : Record)
    (hcap : (titlesOf (tr ++ [⟨s, .call w caller now (.submitRecord record) (exec w s caller now.ns (.submitRecord record)).1,
      (exec w s caller now.ns (.submitRecord record)).2⟩])).size ≤ 2 ^ treeDepth) : Answered tr s a
    (.call w caller now (.submitRecord record) (exec w s caller now.ns (.submitRecord record)).1)
    (exec w s caller now.ns (.submitRecord record)).2 := by
  have hrun := hr.snoc (.call w caller now (.submitRecord record))
  have hroot := (registers_run hrun).root (treeInv_reachable hrun)
  have heq := submitRecordImpl_eq s caller record
  simp only [exec, heq] at hcap hroot ⊢
  by_cases hc : isAdmin s caller = true
  · rw [if_pos hc] at hcap hroot ⊢
    cases hleaf : leafHash record with
    | error e =>
      refine ⟨a, .submitRefused (.inr fun c hc => ?_), h.same rfl fun m _ _ => m.not_passed rfl (.inl rfl)⟩
      rw [leafHash_ok hc] at hleaf
      cases hleaf
    | ok leaf =>
      obtain ⟨t, rfl, rfl, hsub⟩ := exists_title hleaf
      simp only [hleaf] at hcap hroot
      have hf := h.frame (e := .call w caller now (.submitRecord t.record)
          (.root (.ok (feToString (submit s t.record t.leaf).currentRoot)))) (submit s t.record t.leaf)
        (fun m _ _ => m.not_passed rfl (.inl rfl)) (submit_nextChallengeId _ _ _)
        (fun id => .inl (by rw [submit_challenges])) (submit_nullifiers _ _ _) (by rw [submit_admins]; exact h.nodup)
      have hroot := hroot hcap
      have htitles : titlesOf (tr ++ [⟨s, .call w caller now (.submitRecord t.record)
          (.root (.ok (feToString (submit s t.record t.leaf).currentRoot))), submit s t.record t.leaf⟩]) =
          a.titles.enter t := by
        rw [titlesOf_snoc, hsub, h.titles]
      rw [htitles] at hroot hf
      rw [submit_admins, ← h.admins] at hf
      have hstep : Step a (.call w caller now (.submitRecord t.record)
          (.root (.ok (feToString (Titles.root (a.titles.enter t)))))) { a with titles := a.titles.enter t } :=
        .submitted t (h.mem_admins.2 hc)
      rw [← hroot] at hstep
      exact ⟨_, hstep, hf⟩
  · rw [if_neg hc]
    exact ⟨a, .submitRefused (.inl fun hm => hc (h.mem_admins.1 hm)), h.same rfl fun m _ _ =>
      m.not_passed rfl (.inl rfl)⟩

theorem Refines.getRecord (p : UInt64) : Answered tr s a
    (.call w caller now (.getRecord p) (exec w s caller now.ns (.getRecord p)).1)
    (exec w s caller now.ns (.getRecord p)).2 := by
  have hget : getRecordImpl s p = (a.titles.get p).map Title.record := (h.registers hr).records p
  simp only [exec, hget]
  exact ⟨a, .read, h.same rfl fun m _ _ => m.not_passed rfl (.inl rfl)⟩

theorem Refines.getMerkleProof (hcap : (titlesOf tr).size ≤ 2 ^ treeDepth) (p : UInt64) : Answered tr s a
    (.call w caller now (.getMerkleProof p) (exec w s caller now.ns (.getMerkleProof p)).1)
    (exec w s caller now.ns (.getMerkleProof p)).2 := by
  have hproof := (h.registers hr).proof (treeInv_reachable hr) (h.titles ▸ hcap) p
  simp only [exec, hproof]
  exact ⟨a, .proved, h.same rfl fun m _ _ => m.not_passed rfl (.inl rfl)⟩

end

/-! ## Throttled calls -/

section

variable {tr : Trace} {s : State} {a : Registry}

theorem Refines.hurried_iff (hr : CanisterRun tr s) (h : Refines tr s a) (hclock : Clock tr) (m : Method)
    {p : Principal} {now : Time} (hnow : ∀ τ ∈ tr, τ.label.time ≤ now.ns) :
    a.Hurried m p now ↔ Recent (m.lastCallAt s) p now.ns := by
  have hlast := h.lastCall m p
  rw [recent_iff m hr hclock hnow]
  constructor
  · rintro ⟨t, ht, hlt⟩
    obtain ⟨τ, hτ, hp⟩ := hlast.passed t ht
    exact ⟨τ, hτ, t, hp, hlt⟩
  · rintro ⟨τ, hτ, t, hp, hlt⟩
    obtain ⟨t', ht', hle⟩ := hlast.latest τ hτ t hp
    exact ⟨t', ht', by omega⟩

/-- The latest calls after one that passed. -/
theorem Refines.noted (h : Refines tr s a) {e : Event} {s' : State} {m : Method} {caller : Principal} {now : Time}
    (hclock : Clock (tr ++ [⟨s, e, s'⟩])) (hp : m.Passed e caller now) (hone : ∀ m' p t, m'.Passed e p t → m' = m)
    (m' : Method) (p : Principal) :
    LatestPassed m' (tr ++ [⟨s, e, s'⟩]) p ((a.noted m caller now).lastCall m' p) := by
  show LatestPassed m' _ p (if m' = m ∧ p = caller then some now else a.lastCall m' p)
  by_cases hmp : m' = m ∧ p = caller
  · obtain ⟨rfl, rfl⟩ := hmp
    rw [if_pos ⟨rfl, rfl⟩]
    exact .passes hclock hp
  · rw [if_neg hmp]
    refine (h.lastCall m' p).idle fun t hp' => hmp ?_
    have hm := hone m' p t hp'
    subst hm
    exact ⟨rfl, (hp'.unique hp).1⟩

/-- A step that passes the throttle of one method and leaves the admins and titles alone. -/
theorem Refines.passed (h : Refines tr s a) {e : Event} {s' : State} {m : Method} {caller : Principal} {now : Time}
    (hclock : Clock (tr ++ [⟨s, e, s'⟩])) (hp : m.Passed e caller now) (hone : ∀ m' p t, m'.Passed e p t → m' = m)
    (hsub : e.submission = none) (hadmins : s'.admins = s.admins) {issues : List Issue} {spent : Finset BaseElement}
    (hissues : s'.nextChallengeId.toNat = issues.length)
    (hchallenges : ∀ id, Stored (tr ++ [⟨s, e, s'⟩]) s' { a with issues := issues } id)
    (hspent : ∀ v, v ∈ spent ↔ s'.nullifiers.lookup (feToString v) = some true) :
    Refines (tr ++ [⟨s, e, s'⟩]) s' (({ a with issues := issues, spent := spent } : Registry).noted m caller now) where
  admins := hadmins ▸ h.admins
  nodup := hadmins ▸ h.nodup
  titles := by
    rw [titlesOf_snoc, hsub]
    exact h.titles
  issues := hissues
  challenges := hchallenges
  spent := hspent
  lastCall := h.noted hclock hp hone

/-- The challenges after one is issued: it stands at the end of the list. -/
theorem Refines.stored_issued (h : Refines tr s a) {e : Event} {s' : State} {c : Issue}
    (hlook : s'.challenges = s.challenges.insert s.nextChallengeId (c.challenge s.nextChallengeId)) (id : UInt64) :
    Stored (tr ++ [⟨s, e, s'⟩]) s' { a with issues := a.issues ++ [c] } id := by
  by_cases hne : id = s.nextChallengeId
  · subst hne
    refine .inl ?_
    rw [hlook, lookup_insert, if_pos rfl, h.issues, List.getElem?_concat_length]
    rfl
  · have hlen : id.toNat ≠ a.issues.length := by
      rw [← h.issues]
      exact fun hlen => hne (UInt64.toNat_inj.1 hlen)
    have hother : (a.issues ++ [c])[id.toNat]? = a.issues[id.toNat]? := by
      rw [List.getElem?_append]
      split
      · rfl
      · rw [List.getElem?_eq_none (by simp; omega), List.getElem?_eq_none (by omega)]
    have hkeep := (h.challenges id).keep (e := e) s' (.inl (by rw [hlook, lookup_insert, if_neg hne]))
    unfold Stored at hkeep ⊢
    rw [show ({ a with issues := a.issues ++ [c] } : Registry).issues[id.toNat]? = a.issues[id.toNat]? from hother]
    exact hkeep

/-- The challenges after one is answered. -/
theorem Refines.stored_answered (h : Refines tr s a) {e : Event} {s' : State} {id : UInt64} {c : Issue}
    (hc : a.issues[id.toNat]? = some c)
    (hlook : s'.challenges = s.challenges.insert id { c.challenge id with consumed := true }) (id' : UInt64) :
    Stored (tr ++ [⟨s, e, s'⟩]) s' { a with issues := a.issues.set id.toNat { c with answered := true } } id' := by
  have hset : ({ a with issues := a.issues.set id.toNat { c with answered := true } } : Registry).issues[id'.toNat]? =
      (a.issues.set id.toNat { c with answered := true })[id'.toNat]? := rfl
  by_cases hne : id' = id
  · subst hne
    refine .inl ?_
    rw [hlook, lookup_insert, if_pos rfl, hset, List.getElem?_set_self (List.getElem?_eq_some_iff.1 hc).1]
    rfl
  · have hkeep := (h.challenges id').keep (e := e) s' (.inl (by rw [hlook, lookup_insert, if_neg hne]))
    unfold Stored at hkeep ⊢
    rw [hset, List.getElem?_set_ne fun hid => hne (UInt64.toNat_inj.1 hid).symm]
    exact hkeep

theorem Refines.spent_insert (h : Refines tr s a) {s' : State} {v : BaseElement}
    (hnull : s'.nullifiers = s.nullifiers.insert (feToString v) true) (v' : BaseElement) :
    v' ∈ insert v a.spent ↔ s'.nullifiers.lookup (feToString v') = some true := by
  rw [Finset.mem_insert, h.spent, hnull, lookup_insert]
  by_cases hv : v' = v
  · rw [if_pos (hv ▸ rfl)]
    exact ⟨fun _ => rfl, fun _ => .inl hv⟩
  · rw [if_neg fun hv' => hv (feToString_inj hv')]
    exact ⟨fun hm => hm.resolve_left hv, .inr⟩

/-- A challenge just issued is the one of the specification. -/
theorem Refines.issued_eq (hr : CanisterRun tr s) (h : Refines tr s a) (hcap : a.titles.size ≤ 2 ^ treeDepth)
    (caller : Principal) {now : Time} (purpose : UInt64) (htime : now.ns + challengeTtlNs < 2 ^ 63) :
    issued s caller now.ns purpose =
      Issue.challenge s.nextChallengeId ⟨a.titles.root, purpose, caller, now, false⟩ := by
  have hroot := (h.registers hr).root (treeInv_reachable hr) hcap
  have hts : UInt64.ofInt (now.ns.tdiv 1000000000) = UInt64.ofNat (now.ns / 1000000000).toNat := by
    apply UInt64.toNat_inj.1
    rw [timestamp_toNat, UInt64.toNat_ofNat', Nat.mod_eq_of_lt]
    have := now.lt
    omega
  have hexp : i64 (now.ns + challengeTtlNs) = now.ns + challengeTtlNs := by
    have := now.nonneg
    exact i64_of_range (by unfold challengeTtlNs; omega) htime
  unfold issued Issue.challenge
  rw [hroot, nextNonce_run hr, hts, hexp]
  rfl

theorem Refines.requestChallenge (hr : CanisterRun tr s) (h : Refines tr s a) (w : Winterfell) (caller : Principal)
    (now : Time) (purpose : UInt64) {e : Event} {s' : State}
    (he : e = .call w caller now (.requestChallenge purpose) (exec w s caller now.ns (.requestChallenge purpose)).1)
    (hs' : s' = (exec w s caller now.ns (.requestChallenge purpose)).2) (hclock : Clock (tr ++ [⟨s, e, s'⟩]))
    (hissued : issuedCount (tr ++ [⟨s, e, s'⟩]) < 2 ^ 64) (hcap : a.titles.size ≤ 2 ^ treeDepth)
    (htime : now.ns + challengeTtlNs < 2 ^ 63) : Answered tr s a e s' := by
  obtain ⟨hclock', hnow⟩ := hclock.snoc
  have hetime : e.time = now.ns := he ▸ rfl
  have hnow : ∀ τ ∈ tr, τ.label.time ≤ now.ns := fun τ hτ => hetime ▸ hnow τ hτ
  have hhurried := h.hurried_iff hr hclock' .requestChallenge (p := caller) hnow
  by_cases ha : caller = Principal.anonymous
  · simp only [exec, requestChallengeImpl_throttled (checkAndUpdateThrottle_anonymous ha)] at he hs'
    subst he hs'
    exact ⟨a, .issueRefused (.inl ha), h.same rfl fun m _ _ => m.not_passed rfl (.inr rfl)⟩
  by_cases hrec : Recent s.lastChallengeCallAt caller now.ns
  · simp only [exec, requestChallengeImpl_throttled (checkAndUpdateThrottle_recent ha hrec)] at he hs'
    subst he hs'
    exact ⟨a, .issueRefused (.inr (hhurried.2 hrec)), h.same rfl fun m _ _ => m.not_passed rfl (.inr rfl)⟩
  simp only [exec, requestChallengeImpl_ok purpose ha hrec] at he hs'
  have hid : UInt64.ofNat a.issues.length = s.nextChallengeId := by rw [← h.issues, UInt64.ofNat_toNat]
  have hchallenge := h.issued_eq hr hcap caller purpose htime
  obtain ⟨c, hc⟩ : ∃ c : Issue, c = ⟨a.titles.root, purpose, caller, now, false⟩ := ⟨_, rfl⟩
  rw [← hc] at hchallenge
  have hview : viewOf s.nextChallengeId (issued s caller now.ns purpose) = c.view (UInt64.ofNat a.issues.length) := by
    rw [hid, hchallenge]
    rfl
  have hstep := Step.issued (w := w) c ha (fun hh => hrec (hhurried.1 hh)) hc
  rw [← hview, ← he] at hstep
  have hnext : (s.nextChallengeId + 1).toNat = a.issues.length + 1 := by
    have hcount : issuedCount (tr ++ [⟨s, e, s'⟩]) = issuedCount tr + 1 := by
      rw [issuedCount_append, he]
      rfl
    have hlt := nextChallengeId_toNat hr (by omega)
    rw [UInt64.toNat_add, ← h.issues, UInt64.toNat_one, Nat.mod_eq_of_lt (by omega)]
  have hlook : s'.challenges = s.challenges.insert s.nextChallengeId (c.challenge s.nextChallengeId) := by
    rw [hs', ← hchallenge]
    rfl
  have hpassed : Method.requestChallenge.Passed e caller now := ⟨purpose, _, w, he⟩
  refine ⟨_, hstep, h.passed hclock hpassed (fun m p t hp => ?_) (he ▸ rfl) (hs' ▸ rfl) ?_ (h.stored_issued hlook)
    (hs' ▸ h.spent)⟩
  · cases m with
    | requestChallenge => rfl
    | verify => exact absurd hp (he ▸ not_passedThrottle rfl)
  · rw [hs', List.length_append, List.length_singleton]
    exact hnext

end

/-! ## Verify -/

section

variable {tr : Trace} {s : State} {a : Registry} {w : Winterfell} {caller : Principal} {now : Time} {id : UInt64}
  {proofBytes : List UInt8} {publicInputs : VerifyPublicInputs}

theorem Refines.unspent_iff (hr : CanisterRun tr s) (h : Refines tr s a) (v : BaseElement) :
    v ∉ a.spent ↔ (s.nullifiers.lookup (feToString v)).getD false = false := by
  rw [h.spent]
  cases hl : s.nullifiers.lookup (feToString v) with
  | none => exact ⟨fun _ => rfl, fun _ hv => by cases hv⟩
  | some b =>
    obtain ⟨rfl, -⟩ := canonicalKeys_reachable hr _ b hl
    exact ⟨fun hv => absurd rfl hv, fun hv => by cases hv⟩

/-- What the specification accepts passes the checks of the canister, -/
theorem Refines.passes (hr : CanisterRun tr s) (h : Refines tr s a) (hnow : ∀ τ ∈ tr, τ.label.time ≤ now.ns)
    {c : Issue} {v : BaseElement} (ha : a.Accepts w caller now id proofBytes publicInputs c v) :
    Passes s caller now.ns id publicInputs (c.challenge id) v := by
  have hstored : s.challenges.lookup id = some (c.challenge id) := by
    rcases h.challenges id with hl | ⟨-, c', hc', τ, hτ, hlate⟩
    · rw [hl, ha.issued, Option.map_some]
    · -- pruned challenges are past their deadline
      rw [ha.issued] at hc'
      cases hc'
      exact absurd (hlate.trans_le (hnow τ hτ)) (not_lt.2 ha.inTime)
  exact ⟨hstored, ha.requester, ha.unanswered, ha.inTime, ha.registryId, ha.merkleRoot, ha.purpose, ha.requestNonce,
    ha.currentTimestamp, ha.nullifier, (h.unspent_iff hr v).1 ha.unspent⟩

/-- and the other way round. -/
theorem Refines.accepts (hr : CanisterRun tr s) (h : Refines tr s a) {c' : Challenge} {v : BaseElement}
    (hp : Passes s caller now.ns id publicInputs c' v)
    (hw : w proofBytes ⟨fe c'.registryId, c'.merkleRoot, fe c'.purpose, fe c'.requestNonce, fe c'.currentTimestamp, v⟩ =
      .accepted) :
    ∃ c, a.Accepts w caller now id proofBytes publicInputs c v ∧ c' = c.challenge id := by
  rcases h.challenges id with hl | ⟨hl, -⟩
  · rw [hp.stored] at hl
    obtain ⟨c, hc, rfl⟩ := Option.map_eq_some_iff.1 hl.symm
    exact ⟨c, ⟨hc, hp.requester, hp.unconsumed, hp.inTime, hp.registryId, hp.merkleRoot, hp.purpose, hp.requestNonce,
      hp.currentTimestamp, hp.nullifier, (h.unspent_iff hr v).2 hp.unspent, hw⟩, rfl⟩
  · rw [hp.stored] at hl
    cases hl

theorem not_passed_throttled {err : String} (he : err ∈ throttleErrors) (m : Method) (p : Principal) (t : Time) :
    ¬ m.Passed (.call w caller now (.verify id proofBytes publicInputs) (.verified (.error err))) p t := by
  cases m with
  | requestChallenge =>
    rintro ⟨purpose, view, w', heq⟩
    cases heq
  | verify =>
    rintro ⟨w', id', proofBytes', publicInputs', r, heq, hno⟩
    cases heq
    exact hno err he rfl

/-- A `verify` passes the throttle of no other method. -/
theorem method_of_verify {r : Except String VerifyOk} (m : Method) (p : Principal) (t : Time)
    (h : m.Passed (.call w caller now (.verify id proofBytes publicInputs) (.verified r)) p t) : m = .verify := by
  cases m with
  | requestChallenge =>
    obtain ⟨purpose, view, w', heq⟩ := h
    cases heq
  | verify => rfl

theorem Refines.verify (hr : CanisterRun tr s) (h : Refines tr s a) {e : Event} {s' : State}
    (he : e = .call w caller now (.verify id proofBytes publicInputs)
      (exec w s caller now.ns (.verify id proofBytes publicInputs)).1)
    (hs' : s' = (exec w s caller now.ns (.verify id proofBytes publicInputs)).2) (hclock : Clock (tr ++ [⟨s, e, s'⟩])) :
    Answered tr s a e s' := by
  obtain ⟨hclock', hnow⟩ := hclock.snoc
  have hetime : e.time = now.ns := he ▸ rfl
  have hnow : ∀ τ ∈ tr, τ.label.time ≤ now.ns := fun τ hτ => hetime ▸ hnow τ hτ
  have hhurried := h.hurried_iff hr hclock' .verify (p := caller) hnow
  by_cases ha : caller = Principal.anonymous
  · simp only [exec, verify_throttled (checkAndUpdateThrottle_anonymous ha)] at he hs'
    subst he hs'
    exact ⟨a, .verifyRefused (.inl ha), h.same rfl (not_passed_throttled (by decide))⟩
  by_cases hrec : Recent s.lastVerifyCallAt caller now.ns
  · simp only [exec, verify_throttled (checkAndUpdateThrottle_recent ha hrec)] at he hs'
    subst he hs'
    exact ⟨a, .verifyRefused (.inr (hhurried.2 hrec)), h.same rfl (not_passed_throttled (by decide))⟩
  have hnh : ¬ a.Hurried .verify caller now := fun hh => hrec (hhurried.1 hh)
  have hone : ∀ m p t, Method.Passed m e p t → m = .verify := fun m p t hm => method_of_verify m p t (he ▸ hm)
  obtain ⟨err, herr, heq⟩ | ⟨c', v, hp, hw, heq⟩ := verify_cases w id proofBytes publicInputs ha hrec
  · simp only [exec, heq] at he hs'
    have hrefused : ∀ c v, ¬ a.Accepts w caller now id proofBytes publicInputs c v := by
      intro c v hacc
      rw [verify_accepts ha hrec (h.passes hr hnow hacc) hacc.proof] at heq
      cases heq
    have hpassed : Method.verify.Passed e caller now :=
      ⟨w, id, proofBytes, publicInputs, _, he, fun err' h' hne => herr (by cases hne; exact h')⟩
    have hstep : Step a (.call w caller now (.verify id proofBytes publicInputs) (.verified (.error err)))
        (a.noted .verify caller now) := .rejected ha hnh hrefused
    rw [← he] at hstep
    exact ⟨_, hstep, h.passed hclock hpassed hone (he ▸ rfl) (hs' ▸ rfl) (hs' ▸ h.issues)
      (fun id' => (h.challenges id').keep s' (.inl (hs' ▸ rfl))) (hs' ▸ h.spent)⟩
  · simp only [exec, heq] at he hs'
    obtain ⟨c, hacc, rfl⟩ := h.accepts hr hp hw
    have hpassed : Method.verify.Passed e caller now :=
      ⟨w, id, proofBytes, publicInputs, _, he, fun err' _ hne => by cases hne⟩
    have hlook : s'.challenges = s.challenges.insert id { c.challenge id with consumed := true } := hs' ▸ rfl
    have hnull : s'.nullifiers = s.nullifiers.insert (feToString v) true := hs' ▸ rfl
    have hstep := Step.accepted ha hnh hacc
    rw [← he] at hstep
    refine ⟨_, hstep, h.passed hclock hpassed hone (he ▸ rfl) (hs' ▸ rfl) ?_ (h.stored_answered hacc.issued hlook)
      (h.spent_insert hnull)⟩
    rw [List.length_set]
    exact hs' ▸ h.issues

end

/-! ## Ticks and upgrades -/

section

variable {tr : Trace} {s s' : State} {a : Registry} {now : Time}

/-- A step that keeps the admins and is no submission leaves the registry of the specification alone. -/
theorem Refines.idle (h : Refines tr s a) {e : Event} (hsub : e.submission = none)
    (hpass : ∀ m p t, ¬ Method.Passed m e p t) (hid : s'.nextChallengeId = s.nextChallengeId)
    (hlook : ∀ id, s'.challenges.lookup id = s.challenges.lookup id ∨
      (s'.challenges.lookup id = none ∧ ∃ c, s.challenges.lookup id = some c ∧ c.expiresAt < e.time))
    (hnull : s'.nullifiers = s.nullifiers) (hadmins : s'.admins = s.admins) :
    Refines (tr ++ [⟨s, e, s'⟩]) s' a := by
  have hf := h.frame s' hpass hid hlook hnull (hadmins ▸ h.nodup)
  rw [titlesOf_snoc, hsub, ← h.titles, hadmins, ← h.admins] at hf
  exact hf

theorem Refines.heartbeat (h : Refines tr s a) : Answered tr s a (.heartbeat now) (heartbeatImpl s now.ns) := by
  obtain ⟨challenges, oldest, challengeStore, verifyStore, challengeLog, verifyLog, heq, hlook, -⟩ :=
    heartbeatImpl_spec s now.ns
  refine ⟨a, .heartbeat, h.idle rfl (fun m p t => m.not_passed_heartbeat now p t) ?_ ?_ ?_ ?_⟩
  · rw [heq]
  · rw [heq]
    exact hlook
  · rw [heq]
  · rw [heq]

theorem Refines.upgrade (hr : CanisterRun tr s) (h : Refines tr s a) (hst : Canister.Step s (.upgrade now) s') :
    Answered tr s a (.upgrade now) s' := by
  obtain ⟨challenge, verify, rfl⟩ := upgrade_step (treeInv_reachable hr).keyed hst
  exact ⟨a, .upgrade, h.idle rfl (fun m p t => m.not_passed_upgrade now p t) rfl (fun _ => .inl rfl) rfl rfl⟩

end

/-! ## Runs -/

/-- The clock never runs backwards nor near its end, the ids of challenges do not wrap around, and the titles
fit into the tree. -/
structure Bounded (tr : Trace) : Prop where
  clock : Clock tr
  calls : requestCalls tr < 2 ^ 64
  titles : (titlesOf tr).size ≤ 2 ^ treeDepth
  time : ∀ τ ∈ tr, τ.label.time + challengeTtlNs < 2 ^ 63

section

variable {tr : Trace} {s s' : State} {a : Registry} {e : Event}

theorem Bounded.before {τ : Transition State Event} (h : Bounded (tr ++ [τ])) : Bounded tr where
  clock := h.clock.snoc.1
  calls := (requestCalls_le_append tr [τ]).trans_lt h.calls
  titles := by
    have hle := h.titles
    rw [titlesOf_snoc] at hle
    cases hsub : τ.label.submission with
    | none => rwa [hsub] at hle
    | some t =>
      rw [hsub] at hle
      exact (Register.size_le_enter _ _).trans hle
  time τ' hτ' := h.time τ' (List.mem_append_left _ hτ')

theorem Refines.initial : Refines [] freshState init where
  admins := rfl
  nodup := List.nodup_nil
  titles := rfl
  issues := rfl
  challenges _ := .inl rfl
  spent _ := ⟨fun h => (Finset.notMem_empty _ h).elim, fun h => by cases h⟩
  lastCall _ _ := ⟨fun _ h => (Option.some_ne_none _ h.symm).elim, fun _ hτ => (List.not_mem_nil hτ).elim⟩

/-- Every step of the canister is one of the specification. -/
theorem Refines.step (hr : CanisterRun tr s) (hst : Canister.Step s e s') (hb : Bounded (tr ++ [⟨s, e, s'⟩]))
    (h : Refines tr s a) : Answered tr s a e s' := by
  have hcap : (titlesOf tr).size ≤ 2 ^ treeDepth := hb.before.titles
  cases hst with
  | heartbeat now => exact h.heartbeat
  | upgrade now o challenge verify hpost => exact h.upgrade hr (.upgrade now o challenge verify hpost)
  | upgradeUndone now o hpost => exact h.upgrade hr (.upgradeUndone now o hpost)
  | call w caller now c =>
    cases c with
    | bootstrapAdmin b p => exact h.bootstrapAdmin w caller now b p
    | addAdmin p => exact h.addAdmin w caller now p
    | removeAdmin p => exact h.removeAdmin w caller now p
    | submitRecord record => exact h.submitRecord hr w caller now record hb.titles
    | getRecord p => exact h.getRecord hr w caller now p
    | getMerkleProof p => exact h.getMerkleProof hr w caller now hcap p
    | requestChallenge purpose =>
      have htime := hb.time _ (List.mem_append_right _ List.mem_cons_self)
      exact h.requestChallenge hr w caller now purpose rfl rfl hb.clock ((issuedCount_le _).trans_lt hb.calls)
        (h.titles ▸ hcap) htime
    | verify id proofBytes publicInputs => exact h.verify hr rfl rfl hb.clock
    | health => exact ⟨a, .health, h.same rfl fun m _ _ => m.not_passed rfl (.inl rfl)⟩

/-- What callers see of the canister they see of the registry of the specification. -/
theorem canister_refines (hr : CanisterRun tr s) (hb : Bounded tr) :
    ∃ (tr' : List (Transition Registry Event)) (a : Registry),
      Run Step init tr' a ∧ labels tr' = labels tr ∧ Refines tr s a :=
  Run.simulate (G := fun tr _ => Bounded tr) (R := Refines) Refines.initial (fun _ _ _ _ _ _ hb => hb.before)
    (fun _ _ _ _ _ hr hst hb h => h.step hr hst hb) hr hb

end

/-- One title is entered and one challenge is answered. -/
theorem canister_refines_sample : ∃ (tr' : List (Transition Registry Event)) (a : Registry), Run Step init tr' a ∧
    labels tr' = labels (enrolledTrace ++ sampleTrace (enrolled 1) 7) ∧ a.issues.length = 1 := by
  have hsubmissions : submissions (enrolledTrace ++ sampleTrace (enrolled 1) 7) = submissions enrolledTrace := by
    unfold submissions Run.observed sampleTrace
    rw [List.filterMap_append]
    exact List.append_nil _
  have hbounded : Bounded (enrolledTrace ++ sampleTrace (enrolled 1) 7) := by
    constructor
    · exact .of_time (enrolled_sample_time 7)
    · exact Nat.one_lt_two_pow (by norm_num)
    · obtain ⟨t, -, -, ht⟩ := enrolled_submissions
      unfold titlesOf
      rw [hsubmissions, ht]
      exact Nat.one_le_two_pow
    · intro τ hτ
      rw [enrolled_sample_time 7 τ hτ]
      decide
  obtain ⟨tr', a, hrun, hlabels, h⟩ :=
    canister_refines (enrolledTrace_run.append (sample_run (v := 7) enrolled_singleTree.quiet)) hbounded
  refine ⟨tr', a, hrun, hlabels, ?_⟩
  rw [← h.issues]
  rfl

end Yaqeen.Spec
