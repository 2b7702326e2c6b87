/-
The canister as a transition system: calls of any principal with their replies, heartbeat ticks and
upgrades, each at a time. Every call carries the behaviour of the cryptographic phase it meets, so
a run ranges over every such behaviour.
-/
import Yaqeen.Canister.Upgrade
import Yaqeen.Lib.Runs

namespace Yaqeen.Canister

open Air FinMap Runs

inductive Call
  | bootstrapAdmin (callerIsController : Bool) (realAdmin : Principal)
  | addAdmin (newAdmin : Principal)
  | removeAdmin (oldAdmin : Principal)
  | submitRecord (record : Record)
  | getRecord (propertyId : UInt64)
  | getMerkleProof (propertyId : UInt64)
  | requestChallenge (purpose : UInt64)
  | verify (challengeId : UInt64) (proofBytes : List UInt8) (publicInputs : VerifyPublicInputs)
  | health

inductive Reply
  | done (result : Except String Unit)
  | root (result : Except String String)
  | record (result : Option Record)
  | proof (result : Option MerkleProof)
  | challenge (result : Except String ChallengeView)
  | verified (result : Except String VerifyOk)
  | health (text : String)

/-- The reply of a call and the state after it. -/
def exec (winterfell : Winterfell) (s : State) (caller : Principal) (nowNs : Int) : Call → Reply × State
  | .bootstrapAdmin callerIsController realAdmin =>
    let out := bootstrapAdminImpl s callerIsController realAdmin
    (.done out.1, out.2)
  | .addAdmin newAdmin =>
    let out := addAdminImpl s caller newAdmin
    (.done out.1, out.2)
  | .removeAdmin oldAdmin =>
    let out := removeAdminImpl s caller oldAdmin
    (.done out.1, out.2)
  | .submitRecord record =>
    let out := submitRecordImpl s caller record.propertyId record.ownerCommitment record.encumbranceFlag
      record.licenseStatus record.licenseExpiry
    (.root out.1, out.2)
  | .getRecord propertyId => (.record (getRecordImpl s propertyId), s)
  | .getMerkleProof propertyId => (.proof (getMerkleProofImpl s propertyId), s)
  | .requestChallenge purpose =>
    let out := requestChallengeImpl s caller nowNs purpose
    (.challenge out.1, out.2)
  | .verify challengeId proofBytes publicInputs =>
    let out := verify winterfell s caller nowNs challengeId proofBytes publicInputs
    (.verified out.1, out.2)
  | .health => (.health health, s)

inductive Event
  | call (winterfell : Winterfell) (caller : Principal) (now : Time) (c : Call) (reply : Reply)
  | heartbeat (now : Time)
  | upgrade (now : Time)

def Event.time : Event → Int
  | .call _ _ now _ _ => now.ns
  | .heartbeat now => now.ns
  | .upgrade now => now.ns

inductive Step : State → Event → State → Prop
  | call {s : State} (w : Winterfell) (caller : Principal) (now : Time) (c : Call) :
      Step s (.call w caller now c (exec w s caller now.ns c).1) (exec w s caller now.ns c).2
  | heartbeat {s : State} (now : Time) : Step s (.heartbeat now) (heartbeatImpl s now.ns)
  | upgrade {s s' : State} (now : Time) (o : Orders s) (challenge : Iteration s'.lastChallengeCallAt)
      (verify : Iteration s'.lastVerifyCallAt) :
      postUpgrade (preUpgrade s o) = .ok s' → Step s (.upgrade now) (rebuildLogs s' challenge verify)
  /-- A panic while restoring undoes the upgrade. -/
  | upgradeUndone {s : State} {e : String} (now : Time) (o : Orders s) :
      postUpgrade (preUpgrade s o) = .error e → Step s (.upgrade now) s

/-- The transitions of a run of the canister. -/
abbrev Trace : Type := List (Transition State Event)

/-- Runs of the canister from `init`. -/
abbrev CanisterRun (tr : Trace) (s : State) : Prop := Run Step freshState tr s

/-- Time never runs backwards. -/
def Clock (tr : Trace) : Prop := tr.Pairwise fun a b => a.label.time ≤ b.label.time

/-! ## Kinds of events -/

/-- A `request_challenge` call, whatever its reply. -/
def Event.isRequest : Event → Bool
  | .call _ _ _ (.requestChallenge _) _ => true
  | _ => false

def Event.isHeartbeat : Event → Bool
  | .heartbeat _ => true
  | _ => false

def Event.isUpgrade : Event → Bool
  | .upgrade _ => true
  | _ => false

/-- How many `request_challenge` calls a trace makes. -/
def requestCalls (tr : Trace) : ℕ := tr.countP fun τ => τ.label.isRequest

/-- A `request_challenge` call of `caller` that returned `view`. -/
def Requested (e : Event) (caller : Principal) (now : Time) (purpose : UInt64) (view : ChallengeView) : Prop :=
  ∃ w, e = .call w caller now (.requestChallenge purpose) (.challenge (.ok view))

/-- A `verify` call of `caller` that returned `Ok` under the cryptographic behaviour `w`. -/
def Verified (e : Event) (w : Winterfell) (caller : Principal) (now : Time) (challengeId : UInt64)
    (proofBytes : List UInt8) (publicInputs : VerifyPublicInputs) : Prop :=
  ∃ ok, e = .call w caller now (.verify challengeId proofBytes publicInputs) (.verified (.ok ok))

/-- A `request_challenge` call of a trace that succeeded: where it occurs and what it asked and got. -/
structure Request (tr : Trace) where
  index : ℕ
  transition : Transition State Event
  occurs : tr[index]? = some transition
  caller : Principal
  now : Time
  purpose : UInt64
  view : ChallengeView
  requested : Requested transition.label caller now purpose view

/-- A `verify` call of a trace that returned `Ok`: where it occurs and what it was given. -/
structure Acceptance (tr : Trace) where
  index : ℕ
  transition : Transition State Event
  occurs : tr[index]? = some transition
  winterfell : Winterfell
  caller : Principal
  now : Time
  challengeId : UInt64
  proofBytes : List UInt8
  publicInputs : VerifyPublicInputs
  verified : Verified transition.label winterfell caller now challengeId proofBytes publicInputs

/-- A transition at a position of the first `j` is one at that position of the whole. -/
theorem getElem?_of_take {tr : Trace} {i j : ℕ} {τ : Transition State Event} (h : (tr.take j)[i]? = some τ) :
    i < j ∧ tr[i]? = some τ := by
  rw [List.getElem?_take] at h
  split at h
  · rename_i hij
    exact ⟨hij, h⟩
  · cases h

/-- All at one time. -/
theorem Clock.of_time {tr : Trace} {t : Int} (h : ∀ τ ∈ tr, τ.label.time = t) : Clock tr :=
  List.pairwise_of_forall_mem_list fun τ hτ τ' hτ' => by rw [h τ hτ, h τ' hτ']

theorem Clock.le {tr : Trace} (h : Clock tr) {i j : ℕ} {τ τ' : Transition State Event} (hij : i < j)
    (hi : tr[i]? = some τ) (hj : tr[j]? = some τ') : τ.label.time ≤ τ'.label.time := by
  obtain ⟨hil, rfl⟩ := List.getElem?_eq_some_iff.1 hi
  obtain ⟨hjl, rfl⟩ := List.getElem?_eq_some_iff.1 hj
  exact List.pairwise_iff_getElem.1 h i j hil hjl hij

/-- The clock of a run and of its last step. -/
theorem Clock.snoc {tr : Trace} {τ : Transition State Event} (h : Clock (tr ++ [τ])) :
    Clock tr ∧ ∀ τ' ∈ tr, τ'.label.time ≤ τ.label.time := by
  obtain ⟨h, -, hle⟩ := List.pairwise_append.1 h
  exact ⟨h, fun τ' hτ' => hle τ' hτ' τ List.mem_cons_self⟩

/-- The transitions before one are no later than it. -/
theorem Clock.take_le {tr : Trace} (h : Clock tr) {i : ℕ} {τ : Transition State Event} (hi : tr[i]? = some τ) :
    ∀ τ' ∈ tr.take i, τ'.label.time ≤ τ.label.time := by
  intro τ' hτ'
  obtain ⟨j, hj⟩ := List.getElem?_of_mem hτ'
  obtain ⟨hlt, hj⟩ := getElem?_of_take hj
  exact h.le hlt hj hi

def Request.ofTake {tr : Trace} {j : ℕ} (r : Request (tr.take j)) : Request tr :=
  { r with occurs := (getElem?_of_take r.occurs).2 }

theorem Request.ofTake_lt {tr : Trace} {j : ℕ} (r : Request (tr.take j)) : r.ofTake.index < j :=
  (getElem?_of_take r.occurs).1

def throttleErrors : List String := ["anonymous callers are not permitted", "rate limit: try again shortly"]

/-- A `verify` call of `caller` at `now` that the throttle let through, whatever its final result. -/
def PassedThrottle (e : Event) (caller : Principal) (now : Time) : Prop :=
  ∃ w challengeId proofBytes publicInputs r,
    e = .call w caller now (.verify challengeId proofBytes publicInputs) (.verified r) ∧
      ∀ err ∈ throttleErrors, r ≠ .error err

end Yaqeen.Canister
