/-
Spent nullifiers: a proof is accepted only for a value not spent yet, the accepted value is spent from
then on under its one canonical text, and neither pruning nor an upgrade ever forgets it. So no two
accepted proofs carry texts of the same field element, however these are spelled.
-/
import Yaqeen.Canister.Tree

namespace Yaqeen.Canister

open Air FinMap Runs

/-- The keys of the spent map are canonical texts, all marked spent. -/
def CanonicalKeys (s : State) : Prop :=
  ∀ k b, s.nullifiers.lookup k = some b → b = true ∧ ∃ v : BaseElement, k = feToString v

theorem canonicalKeys_step {s s' : State} {e : Event} (hk : Keyed s) (hst : Step s e s') (h : CanonicalKeys s) :
    CanonicalKeys s' := by
  cases step_change hk hst with
  | verified =>
    rename_i w caller now id proofBytes publicInputs c v _ _ _
    intro k b hb
    have hb : (s.nullifiers.insert (feToString v) true).lookup k = some b := hb
    rw [lookup_insert] at hb
    split at hb
    · rename_i hkv
      cases hb
      exact ⟨rfl, v, hkv⟩
    · exact h k b hb
  | heartbeat => simpa [CanonicalKeys] using h
  | submitted => simpa [CanonicalKeys] using h
  | _ => exact h

theorem canonicalKeys_reachable {tr : Trace} {s : State} (h : CanisterRun tr s) : CanonicalKeys s := by
  refine h.invariant_history (P := fun _ s => CanonicalKeys s) (fun k b hb => ?_) fun _ _ _ _ hr h hst =>
    canonicalKeys_step (treeInv_reachable hr).keyed hst h
  cases hb

/-- No step unspends a nullifier. -/
theorem spent_step {s s' : State} {e : Event} (hk : Keyed s) (hst : Step s e s') {k : String}
    (h : s.nullifiers.lookup k = some true) : s'.nullifiers.lookup k = some true := by
  cases step_change hk hst with
  | verified =>
    rename_i w caller now id proofBytes publicInputs c v _ _ _
    show (s.nullifiers.insert (feToString v) true).lookup k = some true
    rw [lookup_insert]
    split
    · rfl
    · exact h
  | heartbeat => rwa [heartbeatImpl_nullifiers]
  | submitted => rwa [submit_nullifiers]
  | _ => exact h

theorem spent_run {tr tr' : Trace} {s s' : State} (h : CanisterRun tr s) (h' : Run Step s tr' s') {k : String}
    (hk : s.nullifiers.lookup k = some true) : s'.nullifiers.lookup k = some true := by
  exact h.invariant_from h' (P := fun _ s => s.nullifiers.lookup k = some true) hk
    fun _ _ _ _ hr hk hst => spent_step (treeInv_reachable hr).keyed hst hk

/-- An accepted proof spends the value of its nullifier, which was not spent before. -/
theorem Acceptance.spends {tr : Trace} {s : State} (h : CanisterRun tr s) (a : Acceptance tr) :
    ∃ v, parseFe a.publicInputs.nullifier = .ok v ∧ a.transition.pre.nullifiers.lookup (feToString v) ≠ some true ∧
      a.transition.post.nullifiers.lookup (feToString v) = some true := by
  obtain ⟨hbefore, hst⟩ := h.before a.occurs
  obtain ⟨c, v, hp, -, heq⟩ := verified_step (treeInv_reachable hbefore).keyed hst a.verified
  refine ⟨v, hp.nullifier, fun hspent => ?_, ?_⟩
  · have := hp.unspent
    rw [hspent] at this
    cases this
  · rw [heq]
    show (a.transition.pre.nullifiers.insert (feToString v) true).lookup (feToString v) = some true
    rw [lookup_insert, if_pos rfl]

/-- The values of two accepted proofs are distinct, the earlier one being spent when the later is checked. -/
theorem Acceptance.fresh_of_lt {tr : Trace} {s : State} (h : CanisterRun tr s) {a a' : Acceptance tr}
    (hlt : a.index < a'.index) :
    ∃ v v', parseFe a.publicInputs.nullifier = .ok v ∧ parseFe a'.publicInputs.nullifier = .ok v' ∧ v ≠ v' := by
  obtain ⟨v, hparse, -, hspent⟩ := a.spends h
  obtain ⟨v', hparse', hfresh, -⟩ := a'.spends h
  refine ⟨v, v', hparse, hparse', ?_⟩
  rintro rfl
  obtain ⟨hbefore, -⟩ := h.before a'.occurs
  have ha : (tr.take a'.index)[a.index]? = some a.transition := by rw [List.getElem?_take_of_lt hlt, a.occurs]
  exact hfresh (spent_run (hbefore.upto ha) (hbefore.after ha) hspent)

/-- No nullifier is spent twice: in every run the nullifiers of two accepted proofs are texts of
distinct field elements, an accepted value is spent in every later state, and the spent map is keyed by
canonical texts. -/
theorem no_double_spend {tr : Trace} {s : State} (h : CanisterRun tr s) :
    (∀ a a' : Acceptance tr, a.index ≠ a'.index →
      ∃ v v', parseFe a.publicInputs.nullifier = .ok v ∧ parseFe a'.publicInputs.nullifier = .ok v' ∧ v ≠ v') ∧
    (∀ a : Acceptance tr, ∃ v, parseFe a.publicInputs.nullifier = .ok v ∧
      s.nullifiers.lookup (feToString v) = some true) ∧
    (∀ (tr' : Trace) (s' : State) (k : String), Run Step s tr' s' → s.nullifiers.lookup k = some true →
      s'.nullifiers.lookup k = some true) ∧
    ∀ k b, s.nullifiers.lookup k = some b → b = true ∧ ∃ v : BaseElement, k = feToString v := by
  refine ⟨fun a a' hne => ?_, fun a => ?_, fun tr' s' k h' hk => spent_run h h' hk, canonicalKeys_reachable h⟩
  · rcases Nat.lt_or_gt_of_ne hne with hlt | hlt
    · exact Acceptance.fresh_of_lt h hlt
    · obtain ⟨v', v, hparse', hparse, hne⟩ := Acceptance.fresh_of_lt h hlt
      exact ⟨v, v', hparse, hparse', hne.symm⟩
  · obtain ⟨v, hparse, -, hspent⟩ := a.spends h
    exact ⟨v, hparse, spent_run (h.upto a.occurs) (h.after a.occurs) hspent⟩

/-! ## Sample exchanges -/

def owner : Principal := ⟨[2]⟩

/-- A verifier of one statement. -/
def accepting (pubInputs : PublicInputs) : Winterfell := fun _ pubInputs' =>
  if pubInputs' = pubInputs then .accepted else .panicked

/-- A caller requests a challenge. -/
def requestBy (caller : Principal) (now : Time) (s : State) : Transition State Event where
  pre := s
  label := .call rejectAll caller now (.requestChallenge 1)
    (.challenge (.ok (viewOf s.nextChallengeId (issued s caller now.ns 1))))
  post := request s caller now.ns 1

/-- A caller requests a challenge and answers it later with a nullifier. -/
structure Exchange where
  caller : Principal
  asked : Time
  answered : Time
  nullifier : BaseElement

namespace Exchange

variable (x : Exchange) (s : State)

def challenge : Challenge := issued s x.caller x.asked.ns 1

/-- The submission that answers the challenge. -/
def inputs : VerifyPublicInputs :=
  ⟨1, feToString s.currentRoot, 1, s.nextNonce, (x.challenge s).currentTimestamp, feToString x.nullifier⟩

/-- What the verifier is given for it. -/
def statement : PublicInputs :=
  ⟨fe 1, s.currentRoot, fe 1, fe s.nextNonce, fe (x.challenge s).currentTimestamp, x.nullifier⟩

/-- The answer is accepted. -/
def verified (w : Winterfell) : Transition State Event where
  pre := request s x.caller x.asked.ns 1
  label := .call w x.caller x.answered (.verify s.nextChallengeId [] (x.inputs s))
    (.verified (.ok ⟨feToString x.nullifier⟩))
  post := accept (request s x.caller x.asked.ns 1) x.caller x.answered.ns s.nextChallengeId (x.challenge s) x.nullifier

def trace : Trace := [requestBy x.caller x.asked s, x.verified s (accepting (x.statement s))]

/-- The request and the answer of the exchange, after any run. -/
def toRequest (tr : Trace) : Request (tr ++ x.trace s) where
  index := tr.length
  transition := requestBy x.caller x.asked s
  occurs := by
    rw [List.getElem?_append_right (Nat.le_refl _), Nat.sub_self]
    rfl
  caller := x.caller
  now := x.asked
  purpose := 1
  view := viewOf s.nextChallengeId (x.challenge s)
  requested := ⟨_, rfl⟩

def toAcceptance (tr : Trace) : Acceptance (tr ++ x.trace s) where
  index := tr.length + 1
  transition := x.verified s (accepting (x.statement s))
  occurs := by
    rw [List.getElem?_append_right (Nat.le_succ _), Nat.succ_sub (Nat.le_refl _), Nat.sub_self]
    rfl
  winterfell := accepting (x.statement s)
  caller := x.caller
  now := x.answered
  challengeId := s.nextChallengeId
  proofBytes := []
  publicInputs := x.inputs s
  verified := ⟨_, rfl⟩

/-- The state lets the exchange through. -/
structure Ready : Prop where
  named : x.caller ≠ Principal.anonymous
  challengeRested : ¬ Recent s.lastChallengeCallAt x.caller x.asked.ns
  verifyRested : ¬ Recent s.lastVerifyCallAt x.caller x.answered.ns
  inTime : x.answered.ns ≤ (x.challenge s).expiresAt
  unspent : s.nullifiers.lookup (feToString x.nullifier) = none

variable {x s}

theorem Ready.passes (h : x.Ready s) : Passes (request s x.caller x.asked.ns 1) x.caller x.answered.ns
    s.nextChallengeId (x.inputs s) (x.challenge s) x.nullifier where
  stored := by
    show (s.challenges.insert s.nextChallengeId (x.challenge s)).lookup s.nextChallengeId = _
    rw [lookup_insert, if_pos rfl]
  requester := rfl
  unconsumed := rfl
  inTime := h.inTime
  registryId := rfl
  merkleRoot := parseFe_feToString _
  purpose := rfl
  requestNonce := rfl
  currentTimestamp := rfl
  nullifier := parseFe_feToString _
  unspent := by
    show (s.nullifiers.lookup (feToString x.nullifier)).getD false = false
    rw [h.unspent]
    rfl

theorem Ready.verify (h : x.Ready s) {w : Winterfell} (hw : w [] (x.statement s) = .accepted) :
    Step (request s x.caller x.asked.ns 1) (x.verified s w).label (x.verified s w).post :=
  step_verify h.named h.verifyRested h.passes hw

theorem Ready.run (h : x.Ready s) : Run Step s (x.trace s) (x.verified s (accepting (x.statement s))).post :=
  (Run.nil.snoc (step_request rejectAll 1 h.named h.challengeRested)).snoc (h.verify (if_pos rfl))

end Exchange

/-! ## The owner's exchange -/

/-- The owner has made no call yet, and no nullifier is spent. -/
structure Quiet (s : State) : Prop where
  challengeCalls : s.lastChallengeCallAt.lookup owner = none
  verifyCalls : s.lastVerifyCallAt.lookup owner = none
  nullifiers : s.nullifiers = ∅

theorem quiet_fresh : Quiet freshState := ⟨rfl, rfl, rfl⟩

/-- The owner requests and answers at once. -/
def ownerExchange (v : BaseElement) : Exchange := ⟨owner, timeZero, timeZero, v⟩

theorem Quiet.ready {s : State} (hq : Quiet s) (v : BaseElement) : (ownerExchange v).Ready s where
  named := by
    show owner ≠ Principal.anonymous
    decide
  challengeRested := not_recent_of_none hq.challengeCalls
  verifyRested := not_recent_of_none hq.verifyCalls
  inTime := by
    show (0 : Int) ≤ i64 (0 + challengeTtlNs)
    decide
  unspent := by
    rw [hq.nullifiers]
    rfl

def requestTransition (s : State) : Transition State Event := requestBy owner timeZero s

def sampleInputs (s : State) (v : BaseElement) : VerifyPublicInputs := (ownerExchange v).inputs s

def sampleStatement (s : State) (v : BaseElement) : PublicInputs := (ownerExchange v).statement s

def verifyTransition (w : Winterfell) (s : State) (v : BaseElement) : Transition State Event :=
  (ownerExchange v).verified s w

def sampleTrace (s : State) (v : BaseElement) : Trace := (ownerExchange v).trace s

def sampleRequest (tr : Trace) (s : State) (v : BaseElement) : Request (tr ++ sampleTrace s v) :=
  (ownerExchange v).toRequest s tr

def sampleAcceptance (tr : Trace) (s : State) (v : BaseElement) : Acceptance (tr ++ sampleTrace s v) :=
  (ownerExchange v).toAcceptance s tr

theorem sample_request {s : State} (hq : Quiet s) : Step s (requestTransition s).label (request s owner 0 1) :=
  step_request rejectAll 1 (by decide) (not_recent_of_none hq.challengeCalls)

theorem requested_run : CanisterRun [requestTransition freshState] (request freshState owner 0 1) :=
  Run.nil.snoc (sample_request quiet_fresh)

theorem sample_passes {s : State} (hq : Quiet s) (v : BaseElement) :
    Passes (request s owner 0 1) owner 0 s.nextChallengeId (sampleInputs s v) (issued s owner 0 1) v :=
  (hq.ready v).passes

theorem sample_run {s : State} {v : BaseElement} (hq : Quiet s) :
    Run Step s (sampleTrace s v) (verifyTransition (accepting (sampleStatement s v)) s v).post :=
  (hq.ready v).run

/-! ## Two exchanges -/

/-- The state after the owner's exchange. -/
def answeredState : State := (verifyTransition (accepting (sampleStatement freshState 7)) freshState 7).post

/-- The registrar requests and answers after the owner. -/
def secondExchange : Exchange := ⟨registrar, timeZero, timeZero, 8⟩

theorem secondExchange_ready : secondExchange.Ready answeredState where
  named := by
    show registrar ≠ Principal.anonymous
    decide
  challengeRested := by
    refine not_recent_of_none ?_
    show (freshState.lastChallengeCallAt.insert owner 0).lookup registrar = none
    rw [lookup_insert, if_neg (by decide)]
    rfl
  verifyRested := by
    refine not_recent_of_none ?_
    show (freshState.lastVerifyCallAt.insert owner 0).lookup registrar = none
    rw [lookup_insert, if_neg (by decide)]
    rfl
  inTime := by
    show (0 : Int) ≤ i64 (0 + challengeTtlNs)
    decide
  unspent := by
    show (freshState.nullifiers.insert (feToString 7) true).lookup (feToString 8) = none
    rw [lookup_insert, if_neg (by decide)]
    rfl

def twiceTrace : Trace := sampleTrace freshState 7 ++ secondExchange.trace answeredState

/-- The state after both. -/
def twiceState : State :=
  (secondExchange.verified answeredState (accepting (secondExchange.statement answeredState))).post

theorem twice_run : CanisterRun twiceTrace twiceState := (sample_run quiet_fresh).append secondExchange_ready.run

def firstAnswer : Acceptance twiceTrace := { sampleAcceptance [] freshState 7 with occurs := rfl }

def secondAnswer : Acceptance twiceTrace := secondExchange.toAcceptance answeredState (sampleTrace freshState 7)

/-- Two answers spend two nullifiers. -/
theorem no_double_spend_sample : ∃ v v', parseFe firstAnswer.publicInputs.nullifier = .ok v ∧
    parseFe secondAnswer.publicInputs.nullifier = .ok v' ∧ v ≠ v' ∧
    twiceState.nullifiers.lookup (feToString v) = some true ∧ twiceState.nullifiers.lookup (feToString v') = some true := by
  obtain ⟨hdistinct, hspent, -⟩ := no_double_spend twice_run
  have hindex : firstAnswer.index ≠ secondAnswer.index := by
    show 1 ≠ 3
    decide
  obtain ⟨v, v', hv, hv', hne⟩ := hdistinct firstAnswer secondAnswer hindex
  obtain ⟨u, hu, hfirst⟩ := hspent firstAnswer
  obtain ⟨u', hu', hsecond⟩ := hspent secondAnswer
  rw [hv] at hu
  rw [hv'] at hu'
  cases hu
  cases hu'
  exact ⟨v, v', hv, hv', hne, hfirst, hsecond⟩

end Yaqeen.Canister
