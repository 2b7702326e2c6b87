/-
Who may write the registry. The one `bootstrap_admin` that succeeds is a controller's; before it, or without
one, nothing is registered, and after it the admin list is never empty again; from then on the registry changes
by calls of admins alone, as long as no upgrade meets a registry that has outgrown its tree.
-/
import Yaqeen.Canister.Admins
import Yaqeen.Canister.RoundTrip
import Yaqeen.Canister.RegistryFacts

namespace Yaqeen.Canister

open Air FinMap Runs HashTree

/-- A `bootstrap_admin` call that returned `Ok`. -/
def Bootstrapped (e : Event) : Prop :=
  ∃ w caller now b p, e = .call w caller now (.bootstrapAdmin b p) (.done (.ok ()))

/-- Two states with the same admin list, records and tree. -/
structure SameRegistry (s s' : State) : Prop where
  admins : s'.admins = s.admins
  records : s'.records = s.records
  leafIndexByProperty : s'.leafIndexByProperty = s.leafIndexByProperty
  zeroHashes : s'.zeroHashes = s.zeroHashes
  nodes : s'.nodes = s.nodes
  currentRoot : s'.currentRoot = s.currentRoot
  nextLeafIndex : s'.nextLeafIndex = s.nextLeafIndex

/-- A call of `add_admin`, `remove_admin` or `submit_record` by an admin of the state before it. -/
def ByAdmin (τ : Transition State Event) : Prop :=
  ∃ w caller now c r, τ.label = .call w caller now c r ∧
    ((∃ p, c = .addAdmin p) ∨ (∃ p, c = .removeAdmin p) ∨ ∃ record, c = .submitRecord record) ∧
    caller ∈ τ.pre.admins

/-- What a run with trace `tr` that ends in `s` says about authority over the registry. -/
structure Authority (tr : Trace) (s : State) : Prop where
  once : ∀ (i j : ℕ) (τ τ' : Transition State Event), tr[i]? = some τ → tr[j]? = some τ' →
    Bootstrapped τ.label → Bootstrapped τ'.label → i = j
  controller : ∀ τ ∈ tr, ∀ w caller now b p, τ.label = .call w caller now (.bootstrapAdmin b p) (.done (.ok ())) →
    b = true
  unopened : (∀ τ ∈ tr, ¬ Bootstrapped τ.label) → SameRegistry freshState s ∧ ∀ τ ∈ tr, SameRegistry freshState τ.pre
  before : ∀ (i j : ℕ) (τ τ' : Transition State Event), tr[i]? = some τ → tr[j]? = some τ' →
    Bootstrapped τ'.label → i ≤ j → SameRegistry freshState τ.pre
  after : ∀ (i j : ℕ) (τ τ' : Transition State Event), tr[i]? = some τ → tr[j]? = some τ' →
    Bootstrapped τ.label → i ≤ j → τ'.post.admins ≠ [] ∧ τ'.post.admins.Nodup
  writes : ∀ (i j : ℕ) (τ τ' : Transition State Event), tr[i]? = some τ → tr[j]? = some τ' →
    Bootstrapped τ.label → i < j → ¬ SameRegistry τ'.pre τ'.post → ByAdmin τ'

/-! ## What a step does to the registry -/

/-- A step leaves the registry alone, is the bootstrap, or is a call of an admin. -/
inductive RegistryStep (s : State) (e : Event) (s' : State) : Prop
  | same : ¬ Bootstrapped e → SameRegistry s s' → RegistryStep s e s'
  | bootstrapped {w : Winterfell} {caller : Principal} {now : Time} {p : Principal} :
      e = .call w caller now (.bootstrapAdmin true p) (.done (.ok ())) → s.admins = [] →
      s' = { s with admins := [p] } → RegistryStep s e s'
  | added {p : Principal} : ¬ Bootstrapped e → ByAdmin ⟨s, e, s'⟩ → p ∉ s.admins →
      s' = { s with admins := s.admins ++ [p] } → RegistryStep s e s'
  | removed {p : Principal} : ¬ Bootstrapped e → ByAdmin ⟨s, e, s'⟩ → 1 < s.admins.length →
      s' = { s with admins := s.admins.filter fun a => a ≠ p } → RegistryStep s e s'
  | submitted : ¬ Bootstrapped e → ByAdmin ⟨s, e, s'⟩ → s'.admins = s.admins → RegistryStep s e s'

section

variable {s s' : State} {caller : Principal} {w : Winterfell} {now : Time}

theorem SameRegistry.refl (s : State) : SameRegistry s s := ⟨rfl, rfl, rfl, rfl, rfl, rfl, rfl⟩

/-- Only a `bootstrap_admin` call can be the bootstrap. -/
theorem not_bootstrapped {c : Call} {r : Reply} (h : ∀ b p, c ≠ .bootstrapAdmin b p) :
    ¬ Bootstrapped (.call w caller now c r) := by
  rintro ⟨w', caller', now', b, p, heq⟩
  injection heq with _ _ _ hc
  exact h b p hc

/-- A failed or silent call is not the bootstrap. -/
theorem not_bootstrapped_of_silent {c : Call} {r : Reply} (h : r.isSilent = true) :
    ¬ Bootstrapped (.call w caller now c r) := by
  rintro ⟨w', caller', now', b, p, heq⟩
  injection heq with _ _ _ _ hr
  rw [hr] at h
  cases h

/-- An accepted call on the admin list is seen in the event. -/
theorem not_bootstrapped_of_appointment {e : Event} (h : e.appointment = none) : ¬ Bootstrapped e := by
  rintro ⟨w, caller, now, b, p, rfl⟩
  cases h

/-- A step on the admin list that sets nothing else. -/
theorem AdminStep.registry {e : Event} {admins : List Principal} (h : AdminStep s e { s with admins := admins }) :
    RegistryStep s e { s with admins := admins } := by
  cases h with
  | kept he hadmins => exact .same (not_bootstrapped_of_appointment he) ⟨hadmins, rfl, rfl, rfl, rfl, rfl, rfl⟩
  | bootstrapped he hnil hadmins =>
    have hadmins : admins = _ := hadmins
    exact .bootstrapped he hnil (by rw [hadmins])
  | @added w caller now p he hcaller hadmins =>
    have hadmins : admins = _ := hadmins
    subst he
    have hno : ¬ Bootstrapped (.call w caller now (.addAdmin p) (.done (.ok ()))) :=
      not_bootstrapped fun _ _ h => by cases h
    split_ifs at hadmins with hp
    · subst hadmins
      exact .same hno (.refl s)
    · exact .added hno ⟨_, _, _, _, _, rfl, .inl ⟨p, rfl⟩, hcaller⟩ hp (by rw [hadmins])
  | @removed w caller now p he hcaller hlen hadmins =>
    have hadmins : admins = _ := hadmins
    subst he
    exact .removed (p := p) (not_bootstrapped fun _ _ h => by cases h)
      ⟨_, _, _, _, _, rfl, .inr (.inl ⟨p, rfl⟩), hcaller⟩
      hlen (by rw [hadmins])

/-- Every step is one of these, an upgrade as long as the registry fits its tree. -/
theorem registry_step {e : Event} (hinv : TreeInv s) (hst : Step s e s')
    (hfits : e.isUpgrade = true → ∀ p i, s.leafIndexByProperty.lookup p = some i → i < 2 ^ treeDepth) :
    RegistryStep s e s' := by
  cases step_change hinv.keyed hst with
  | silent _ hr => exact .same (not_bootstrapped_of_silent hr) (.refl s)
  | admins admins hc hr => exact (admin_step hinv.keyed hst).registry
  | submitted ha =>
    rename_i record leaf _
    exact .submitted (not_bootstrapped fun _ _ h => by cases h)
      ⟨_, _, _, _, _, rfl, .inr (.inr ⟨_, rfl⟩), isAdmin_iff.1 ha⟩ (submit_admins s _ _)
  | requested => exact .same (not_bootstrapped fun _ _ h => by cases h) ⟨rfl, rfl, rfl, rfl, rfl, rfl, rfl⟩
  | throttled => exact .same (not_bootstrapped fun _ _ h => by cases h) (.refl s)
  | failed => exact .same (not_bootstrapped fun _ _ h => by cases h) ⟨rfl, rfl, rfl, rfl, rfl, rfl, rfl⟩
  | verified => exact .same (not_bootstrapped fun _ _ h => by cases h) ⟨rfl, rfl, rfl, rfl, rfl, rfl, rfl⟩
  | heartbeat =>
    rename_i now
    obtain ⟨_, _, _, _, _, _, heq, -⟩ := heartbeatImpl_spec s now.ns
    refine .same ?_ ?_
    · rintro ⟨_, _, _, _, _, h⟩
      cases h
    · rw [heq]
      exact ⟨rfl, rfl, rfl, rfl, rfl, rfl, rfl⟩
  | upgraded =>
    refine .same ?_ ⟨rfl, rfl, rfl, hinv.zeros.symm, rfl, hinv.restored_root (hfits rfl), rfl⟩
    rintro ⟨_, _, _, _, _, h⟩
    cases h

/-! ## Every run -/

/-- The admin list can be neither emptied nor made to repeat a principal. -/
structure Opened (s : State) : Prop where
  admins : s.admins ≠ []
  nodup : s.admins.Nodup

theorem filter_ne_nil {l : List Principal} (hl : l.Nodup) (h : 1 < l.length) (p : Principal) :
    (l.filter fun a => a ≠ p) ≠ [] := by
  match l, h with
  | a :: b :: l, _ =>
    intro hnil
    -- both of two admins would be the one removed
    have hall := List.filter_eq_nil_iff.1 hnil
    have ha : a = p := by simpa using hall a List.mem_cons_self
    have hb : b = p := by simpa using hall b (List.mem_cons_of_mem _ List.mem_cons_self)
    rw [ha, hb] at hl
    exact (List.nodup_cons.1 hl).1 List.mem_cons_self

theorem RegistryStep.opened {e : Event} (h : RegistryStep s e s') (ho : Opened s) : Opened s' := by
  cases h with
  | same _ h => exact ⟨h.admins ▸ ho.admins, h.admins ▸ ho.nodup⟩
  | bootstrapped _ hnil => exact absurd hnil ho.admins
  | added _ _ hp heq =>
    subst heq
    exact ⟨List.append_ne_nil_of_right_ne_nil _ (List.cons_ne_nil _ _),
      List.nodup_append.2 ⟨ho.nodup, List.nodup_singleton _, fun a ha b hb hab => hp (by
        rw [List.mem_singleton.1 hb] at hab
        exact hab ▸ ha)⟩⟩
  | removed _ _ hlen heq =>
    subst heq
    exact ⟨filter_ne_nil ho.nodup hlen _, ho.nodup.filter _⟩
  | submitted _ _ hadmins => exact ⟨hadmins ▸ ho.admins, hadmins ▸ ho.nodup⟩

/-- No step after the bootstrap is one. -/
theorem RegistryStep.not_bootstrapped {e : Event} (h : RegistryStep s e s') (ho : Opened s) : ¬ Bootstrapped e := by
  cases h with
  | same h _ => exact h
  | bootstrapped _ hnil => exact absurd hnil ho.admins
  | added h _ _ _ => exact h
  | removed h _ _ _ => exact h
  | submitted h _ _ => exact h

/-- Before the bootstrap, only the bootstrap changes the registry. -/
theorem RegistryStep.unopened {e : Event} (h : RegistryStep s e s') (hs : SameRegistry freshState s) :
    (¬ Bootstrapped e ∧ SameRegistry freshState s') ∨ (Bootstrapped e ∧ Opened s') := by
  -- the admin list is still empty, so no call is an admin's
  have hno : ¬ ByAdmin ⟨s, e, s'⟩ := by
    rintro ⟨w, caller, now, c, r, -, -, hcaller⟩
    rw [hs.admins] at hcaller
    cases hcaller
  cases h with
  | same he h =>
    exact .inl ⟨he, h.admins.trans hs.admins, h.records.trans hs.records,
      h.leafIndexByProperty.trans hs.leafIndexByProperty, h.zeroHashes.trans hs.zeroHashes, h.nodes.trans hs.nodes,
      h.currentRoot.trans hs.currentRoot, h.nextLeafIndex.trans hs.nextLeafIndex⟩
  | bootstrapped he _ heq =>
    subst heq
    exact .inr ⟨⟨_, _, _, _, _, he⟩, List.cons_ne_nil _ _, List.nodup_singleton _⟩
  | added _ hadmin => exact absurd hadmin hno
  | removed _ hadmin => exact absurd hadmin hno
  | submitted _ hadmin => exact absurd hadmin hno

end

/-- A transition is no upgrade of a registry with more than `2^25` properties. -/
def UpgradeFits (τ : Transition State Event) : Prop :=
  τ.label.isUpgrade = true → τ.pre.leafIndexByProperty.keys.card ≤ 2 ^ treeDepth

theorem UpgradeFits.step {s s' : State} {e : Event} (h : UpgradeFits ⟨s, e, s'⟩) (hinv : TreeInv s)
    (hst : Step s e s') : RegistryStep s e s' :=
  registry_step hinv hst fun he p i hp => lt_of_lt_of_le (hinv.index_lt p i hp) (h he)

/-- The registry is the initial one until the bootstrap, and opened from then on. -/
theorem phase_run {tr : Trace} {s : State} (h : CanisterRun tr s) (hfits : ∀ τ ∈ tr, UpgradeFits τ) :
    ((∀ τ ∈ tr, ¬ Bootstrapped τ.label) → SameRegistry freshState s) ∧
      ((∃ τ ∈ tr, Bootstrapped τ.label) → Opened s) := by
  induction h with
  | nil =>
    refine ⟨fun _ => .refl _, ?_⟩
    rintro ⟨τ, hτ, -⟩
    cases hτ
  | @snoc tr s e s' hr hst ih =>
    obtain ⟨hbefore, hafter⟩ := ih fun τ hτ => hfits τ (List.mem_append_left _ hτ)
    have hstep := (hfits _ (List.mem_append_right _ List.mem_cons_self)).step (treeInv_reachable hr) hst
    by_cases hboot : ∃ τ ∈ tr, Bootstrapped τ.label
    · refine ⟨fun hno => ?_, fun _ => hstep.opened (hafter hboot)⟩
      obtain ⟨τ, hτ, hb⟩ := hboot
      exact absurd hb (hno τ (List.mem_append_left _ hτ))
    · have hno : ∀ τ ∈ tr, ¬ Bootstrapped τ.label := fun τ hτ hb => hboot ⟨τ, hτ, hb⟩
      obtain ⟨he, hs'⟩ | ⟨he, hs'⟩ := hstep.unopened (hbefore hno)
      · refine ⟨fun _ => hs', ?_⟩
        rintro ⟨τ, hτ, hb⟩
        rcases List.mem_append.1 hτ with hτ | hτ
        · exact absurd hb (hno τ hτ)
        · rw [List.mem_singleton.1 hτ] at hb
          exact absurd hb he
      · exact ⟨fun hall => absurd he (hall _ (List.mem_append_right _ List.mem_cons_self)), fun _ => hs'⟩

/-- After the bootstrap the registry is opened. -/
theorem opened_after {tr : Trace} {s : State} (h : CanisterRun tr s) (hfits : ∀ τ ∈ tr, UpgradeFits τ) {i j : ℕ}
    {τ τ' : Transition State Event} (hi : tr[i]? = some τ) (hj : tr[j]? = some τ') (hb : Bootstrapped τ.label)
    (hij : i < j) : Opened τ'.pre := by
  have hmem : τ ∈ tr.take j := List.mem_of_getElem? (by rw [List.getElem?_take_of_lt hij, hi])
  exact (phase_run (h.before hj).1 fun τ hτ => hfits τ (List.mem_of_mem_take hτ)).2 ⟨τ, hmem, hb⟩

theorem step_at {tr : Trace} {s : State} (h : CanisterRun tr s) (hfits : ∀ τ ∈ tr, UpgradeFits τ) {i : ℕ}
    {τ : Transition State Event} (hi : tr[i]? = some τ) : RegistryStep τ.pre τ.label τ.post := by
  obtain ⟨hbefore, hst⟩ := h.before hi
  exact (hfits τ (List.mem_of_getElem? hi)).step (treeInv_reachable hbefore) hst

theorem bootstrapped_once {tr : Trace} {s : State} (h : CanisterRun tr s) (hfits : ∀ τ ∈ tr, UpgradeFits τ) {i j : ℕ}
    {τ τ' : Transition State Event} (hi : tr[i]? = some τ) (hj : tr[j]? = some τ') (hb : Bootstrapped τ.label)
    (hb' : Bootstrapped τ'.label) : i = j := by
  rcases Nat.lt_trichotomy i j with hij | hij | hij
  · exact absurd hb' ((step_at h hfits hj).not_bootstrapped (opened_after h hfits hi hj hb hij))
  · exact hij
  · exact absurd hb ((step_at h hfits hi).not_bootstrapped (opened_after h hfits hj hi hb' hij))

/-- In every run whose upgrades all meet a registry that fits its tree, the registry is under the
authority of its admins. -/
theorem authority_of_fitting_upgrades {tr : Trace} {s : State} (h : CanisterRun tr s)
    (hfits : ∀ τ ∈ tr, UpgradeFits τ) : Authority tr s where
  once i j τ τ' hi hj hb hb' := bootstrapped_once h hfits hi hj hb hb'
  controller τ hτ w caller now b p hlabel := by
    obtain ⟨i, hi⟩ := List.getElem?_of_mem hτ
    have hboot : Bootstrapped τ.label := ⟨w, caller, now, b, p, hlabel⟩
    cases step_at h hfits hi with
    | same hno => exact absurd hboot hno
    | bootstrapped heq =>
      rw [hlabel] at heq
      injection heq with _ _ _ hc
      injection hc
    | added hno => exact absurd hboot hno
    | removed hno => exact absurd hboot hno
    | submitted hno => exact absurd hboot hno
  unopened hno := by
    refine ⟨(phase_run h hfits).1 hno, fun τ hτ => ?_⟩
    obtain ⟨i, hi⟩ := List.getElem?_of_mem hτ
    exact (phase_run (h.before hi).1 fun τ hτ => hfits τ (List.mem_of_mem_take hτ)).1 fun τ hτ =>
      hno τ (List.mem_of_mem_take hτ)
  before i j τ τ' hi hj hb hij := by
    refine (phase_run (h.before hi).1 fun τ hτ => hfits τ (List.mem_of_mem_take hτ)).1 fun τ₀ hτ₀ hb₀ => ?_
    obtain ⟨k, hk⟩ := List.getElem?_of_mem hτ₀
    obtain ⟨hlt, hk⟩ := getElem?_of_take hk
    exact absurd (bootstrapped_once h hfits hk hj hb₀ hb) (Nat.ne_of_lt (Nat.lt_of_lt_of_le hlt hij))
  after i j τ τ' hi hj hb hij := by
    have hmem : τ ∈ tr.take (j + 1) :=
      List.mem_of_getElem? (by rw [List.getElem?_take_of_lt (Nat.lt_succ_of_le hij), hi])
    have ho := (phase_run (h.upto hj) fun τ hτ => hfits τ (List.mem_of_mem_take hτ)).2 ⟨τ, hmem, hb⟩
    exact ⟨ho.admins, ho.nodup⟩
  writes i j τ τ' hi hj hb hij hne := by
    cases step_at h hfits hj with
    | same _ hsame => exact absurd hsame hne
    | bootstrapped _ hnil => exact absurd hnil (opened_after h hfits hi hj hb hij).admins
    | added _ hadmin => exact hadmin
    | removed _ hadmin => exact hadmin
    | submitted _ hadmin => exact hadmin

/-! ## An upgrade of an overgrown registry -/

/-- The registrar becomes the admin. -/
def bootTransition : Transition State Event :=
  ⟨freshState, .call rejectAll registrar timeZero (.bootstrapAdmin true registrar) (.done (.ok ())), enrolled 0⟩

theorem bootstrapped_bootTransition : Bootstrapped bootTransition.label := ⟨_, _, _, _, _, rfl⟩

theorem enrolled_run_booted : ∀ n, ∃ tr, CanisterRun (bootTransition :: tr) (enrolled n) ∧
    ∀ τ ∈ bootTransition :: tr, τ.label.isUpgrade = false
  | 0 => ⟨[], Run.nil.snoc (.call rejectAll registrar timeZero (.bootstrapAdmin true registrar)), fun τ hτ => by
      rw [List.mem_singleton.1 hτ]
      rfl⟩
  | n + 1 => by
    obtain ⟨tr, h, hno⟩ := enrolled_run_booted n
    refine ⟨_, h.snoc (enrolled_step n), fun τ hτ => ?_⟩
    rcases List.mem_append.1 (show τ ∈ (bootTransition :: tr) ++ _ from hτ) with hτ | hτ
    · exact hno τ hτ
    · rw [List.mem_singleton.1 hτ]
      rfl

/-- Whoever becomes the admin, the registrar's run is under its authority. -/
theorem authority_enrolled : ∃ tr, CanisterRun tr (enrolled 3) ∧ Authority tr (enrolled 3) := by
  obtain ⟨tr, h, hno⟩ := enrolled_run_booted 3
  refine ⟨_, h, authority_of_fitting_upgrades h fun τ hτ hup => ?_⟩
  rw [hno τ hτ] at hup
  cases hup

theorem enrolled_leaf : ∀ n p r, (enrolled n).records.lookup p = some r → leafHash r = .ok plainLeaf
  | 0, p, r, h => by cases h
  | n + 1, p, r, h => by
    rw [enrolled, submit_records, lookup_insert] at h
    split at h
    · cases h
      exact leafHash_plainRecord n
    · exact enrolled_leaf n p r h

/-- The tree of `n` plain properties: their leaf at the first `n` indices and zero elsewhere. -/
theorem enrolled_nodes {n : ℕ} (hn : n < 2 ^ 64) : ∃ leaf : ℕ → BaseElement,
    (∀ i, leaf i = if i < n then plainLeaf else 0) ∧
      ∀ l ≤ treeDepth, ∀ i, nodeAt (enrolled n) l i = fullNode nodeHash leaf l i := by
  obtain ⟨tr, h⟩ := enrolled_run n
  obtain ⟨-, -, hlook⟩ := enrolled_index n hn
  obtain ⟨leaf, hl, hfull⟩ := (treeInv_reachable h).nodes
  refine ⟨leaf, fun i => ?_, hfull⟩
  by_cases hi : i < n
  · rw [if_pos hi]
    have hp : (enrolled n).leafIndexByProperty.lookup (UInt64.ofNat i) = some i := by
      rw [hlook, UInt64.toNat_ofNat', Nat.mod_eq_of_lt (hi.trans hn), if_pos hi]
    obtain ⟨r, hr⟩ := ((treeInv_reachable h).registered _).2 ⟨i, hp⟩
    have := hl.assigned _ i r hp hr
    rw [enrolled_leaf n _ r hr] at this
    exact (Except.ok.inj this).symm
  · rw [if_neg hi]
    refine hl.free i fun p hp => ?_
    rw [hlook] at hp
    split at hp
    · cases hp
      exact hi ‹_›
    · cases hp

/-- Residues of the roots of trees with one leaf repeated. -/
def emptyNat (x : ℕ) : ℕ → ℕ
  | 0 => x
  | l + 1 => hashList [4, emptyNat x l, emptyNat x l]

theorem emptyRoot_new (x : ℕ) : ∀ l, emptyRoot nodeHash (BaseElement.new x) l = BaseElement.new (emptyNat x l)
  | 0 => rfl
  | l + 1 => by rw [emptyRoot, emptyRoot_new x l, nodeHash_eval, emptyNat]

/-- The residue of the plain leaf. -/
def plainNat : ℕ := hashList (singleLeaf (hashList [2, 42, 5]) 100)

theorem plain_roots_ne : emptyNat plainNat 25 % modulus ≠ singleNat plainNat 25 % modulus := by decide +kernel

/-- The root of a full plain tree is not that of a tree with one plain leaf. -/
theorem emptyRoot_ne_singleRoot : emptyRoot nodeHash plainLeaf 25 ≠ singleRoot nodeHash plainLeaf 0 25 := by
  rw [plainLeaf_eval, show hashList (singleLeaf (hashList [2, 42, 5]) 100) = plainNat from rfl, emptyRoot_new,
    singleRoot_new]
  intro h
  exact plain_roots_ne ((ZMod.natCast_eq_natCast_iff' _ _ _).1 h)

/-- With one property more than the tree has leaves, the current root is that of the subtree beside it. -/
theorem overgrown_root {n : ℕ} (hn : n = 2 ^ treeDepth) :
    (enrolled (n + 1)).currentRoot = singleRoot nodeHash plainLeaf 0 25 ∧
      nodeAt (enrolled (n + 1)) treeDepth 0 = emptyRoot nodeHash plainLeaf 25 := by
  have hlt : n < 2 ^ 64 := by rw [hn]; norm_num
  have hpos : 0 < 2 ^ treeDepth := Nat.two_pow_pos _
  obtain ⟨hnext, -, hlook⟩ := enrolled_index n hlt
  obtain ⟨leaf, hleaf, hfull⟩ := enrolled_nodes hlt
  have hid := plainRecord_id hlt
  have hassign : (assignIndex (enrolled n) (plainRecord n).propertyId).1 = n := by
    obtain ⟨i, hi, -⟩ | ⟨-, h⟩ := assignIndex_cases (enrolled n) (plainRecord n).propertyId
    · rw [hlook, hid, if_neg (Nat.lt_irrefl n)] at hi
      cases hi
    · rw [h]
      exact hnext
  have hnodes := submit_nodes hfull hassign plainLeaf
  rw [enrolled, submit_currentRoot, hassign, hnodes treeDepth le_rfl, hnodes treeDepth le_rfl]
  constructor
  · -- the last leaf is the first of the subtree beside the tree, whose other leaves are zero
    rw [hn, Nat.div_self hpos]
    refine fullNode_first treeDepth 1 ?_ fun j hj hne => ?_
    · rw [Nat.mul_one, Function.update_self]
    · rw [Nat.mul_one] at hne
      rw [Function.update_of_ne hne, hleaf, hn, if_neg]
      intro hjlt
      rw [Nat.div_eq_of_lt hjlt] at hj
      cases hj
  · rw [← fullNode_const plainLeaf treeDepth 0]
    refine fullNode_congr treeDepth 0 fun j hj => ?_
    have hjlt : j < n := hn ▸ (Nat.div_eq_zero_iff_lt hpos).1 hj
    rw [Function.update_of_ne (Nat.ne_of_lt hjlt), hleaf, if_pos hjlt]

/-- The registrar becomes the admin and submits one property more than the tree has leaves; an upgrade then
changes the root, with no call of an admin. -/
theorem overgrown_upgrade_changes_root : ∃ tr s', CanisterRun tr (enrolled (2 ^ treeDepth + 1)) ∧
    Step (enrolled (2 ^ treeDepth + 1)) (.upgrade timeZero) s' ∧
    s'.currentRoot ≠ (enrolled (2 ^ treeDepth + 1)).currentRoot ∧
    ¬ Authority (tr ++ [⟨enrolled (2 ^ treeDepth + 1), .upgrade timeZero, s'⟩]) s' := by
  obtain ⟨n, hn⟩ : ∃ n, n = 2 ^ treeDepth := ⟨_, rfl⟩
  rw [← hn]
  obtain ⟨hroot, hnode⟩ := overgrown_root hn
  obtain ⟨tr, h, -⟩ := enrolled_run_booted (n + 1)
  obtain ⟨challenge⟩ := exists_iteration (enrolled (n + 1)).lastChallengeCallAt
  obtain ⟨verify⟩ := exists_iteration (enrolled (n + 1)).lastVerifyCallAt
  have hinv := treeInv_reachable h
  have hst := step_upgrade hinv.keyed timeZero challenge verify
  -- the upgrade takes the root from node (25, 0), the last record left it at node (25, 1)
  have hne : (upgraded (enrolled (n + 1)) challenge.entries verify.entries).currentRoot ≠
      (enrolled (n + 1)).currentRoot := by
    have hrestored : (upgraded (enrolled (n + 1)) challenge.entries verify.entries).currentRoot =
        nodeAt (enrolled (n + 1)) treeDepth 0 := by
      unfold nodeAt
      rw [hinv.zeros]
      rfl
    rw [hrestored, hnode, hroot]
    exact emptyRoot_ne_singleRoot
  refine ⟨_, _, h, hst, hne, fun hauth => ?_⟩
  obtain ⟨w, caller, now, c, r, hlabel, -⟩ := hauth.writes 0 (bootTransition :: tr).length bootTransition _ rfl
    List.getElem?_concat_length bootstrapped_bootTransition (Nat.succ_pos _) fun hsame => hne hsame.currentRoot
  cases hlabel

end Yaqeen.Canister
