/-
The canister's operations, each as the result it returns and the state it leaves: the admin list, the
registry with its sparse Merkle tree, challenges with their throttle, the three phases of `verify`,
and the heartbeat. Loops run on a fuel that is the number of rounds their guard allows.
-/
import Yaqeen.Canister.State

namespace Yaqeen.Canister

open Air FinMap

/-! ## Admin -/

def bootstrapAdminImpl (s : State) (callerIsController : Bool) (realAdmin : Principal) : Except String Unit × State :=
  if ¬ callerIsController then (.error "only a canister controller may bootstrap the admin list", s)
  else if s.admins ≠ [] then (.error "admins already bootstrapped -- use add_admin instead", s)
  else (.ok (), { s with admins := s.admins ++ [realAdmin] })

def addAdminImpl (s : State) (caller newAdmin : Principal) : Except String Unit × State :=
  if ¬ isAdmin s caller then (.error "unauthorized", s)
  else if newAdmin ∉ s.admins then (.ok (), { s with admins := s.admins ++ [newAdmin] })
  else (.ok (), s)

def removeAdminImpl (s : State) (caller oldAdmin : Principal) : Except String Unit × State :=
  if ¬ isAdmin s caller then (.error "unauthorized", s)
  else if s.admins.length ≤ 1 then (.error "cannot remove the last remaining admin", s)
  else (.ok (), { s with admins := s.admins.filter fun a => a ≠ oldAdmin })

/-! ## Registry and tree -/

def nodeAt (s : State) (level index : ℕ) : BaseElement :=
  (s.nodes.lookup (level, index)).getD (s.zeroHashes.getD level 0)

def leafHash (r : Record) : Except String BaseElement :=
  match parseFe r.ownerCommitment with
  | .error e => .error e
  | .ok ownerCommitment =>
    .ok (Air.hash [BaseElement.new domainLeaf, fe registryId, ownerCommitment, fe r.encumbranceFlag,
      fe r.licenseStatus, fe r.licenseExpiry])

theorem leafHash_ok {r : Record} {c : BaseElement} (h : parseFe r.ownerCommitment = .ok c) :
    leafHash r = .ok (Air.hash [BaseElement.new domainLeaf, fe registryId, c, fe r.encumbranceFlag,
      fe r.licenseStatus, fe r.licenseExpiry]) := by
  unfold leafHash
  rw [h]

/-- The index of the other node of a pair. -/
def siblingIndex (idx : ℕ) : ℕ :=
  let pairBase := idx / 2 * 2
  if idx = pairBase then pairBase + 1 else pairBase

/-- The loop of `insert_leaf` over the levels that remain. -/
def insertLeafLoop : ℕ → State → ℕ → ℕ → BaseElement → State × BaseElement
  | 0, s, _, _, cur => (s, cur)
  | remaining + 1, s, level, idx, cur =>
    let sibling := nodeAt s level (siblingIndex idx)
    let (l, r) := if idx % 2 = 0 then (cur, sibling) else (sibling, cur)
    let cur := Air.hash [BaseElement.new domainNode, l, r]
    let idx := idx / 2
    let level := level + 1
    insertLeafLoop remaining { s with nodes := s.nodes.insert (level, idx) cur } level idx cur

def insertLeaf (s : State) (index : ℕ) (leaf : BaseElement) : State :=
  let s := { s with nodes := s.nodes.insert (0, index) leaf }
  let (s, cur) := insertLeafLoop treeDepth s 0 index leaf
  { s with currentRoot := cur }

/-- The leaf index of a property: its own if it has one, else the next, which is a `u64` counter. -/
def assignIndex (s : State) (propertyId : UInt64) : ℕ × State :=
  match s.leafIndexByProperty.lookup propertyId with
  | some i => (i, s)
  | none =>
    let i := s.nextLeafIndex
    (i, { s with
      nextLeafIndex := (s.nextLeafIndex + 1) % 2 ^ 64
      leafIndexByProperty := s.leafIndexByProperty.insert propertyId i })

def submitRecordImpl (s : State) (caller : Principal) (propertyId : UInt64) (ownerCommitment : String)
    (encumbranceFlag licenseStatus licenseExpiry : UInt64) : Except String String × State :=
  if ¬ isAdmin s caller then (.error "unauthorized -- gate this behind real admin auth", s)
  else
    let record : Record := ⟨propertyId, ownerCommitment, encumbranceFlag, licenseStatus, licenseExpiry⟩
    match leafHash record with
    | .error e => (.error e, s)
    | .ok leaf =>
      let (index, s) := assignIndex s propertyId
      let s := { s with records := s.records.insert propertyId record }
      let s := insertLeaf s index leaf
      (.ok (feToString s.currentRoot), s)

def getRecordImpl (s : State) (propertyId : UInt64) : Option Record := s.records.lookup propertyId

/-- The loop of `get_merkle_proof_impl` over the levels that remain. -/
def merkleProofLoop (s : State) : ℕ → ℕ → ℕ → List String × List Bool
  | 0, _, _ => ([], [])
  | remaining + 1, level, idx =>
    let rest := merkleProofLoop s remaining (level + 1) (idx / 2)
    (feToString (nodeAt s level (siblingIndex idx)) :: rest.1, decide (idx % 2 = 1) :: rest.2)

def getMerkleProofImpl (s : State) (propertyId : UInt64) : Option MerkleProof :=
  match s.leafIndexByProperty.lookup propertyId with
  | none => none
  | some index =>
    let (siblings, pathBits) := merkleProofLoop s treeDepth 0 index
    some ⟨index, siblings, pathBits, feToString s.currentRoot⟩

/-! ## Challenges -/

def checkAndUpdateThrottle (store : HashMap Principal Int) (log : List (Principal × Int)) (caller : Principal)
    (nowNs : Int) : Except String Unit × HashMap Principal Int × List (Principal × Int) :=
  if caller = Principal.anonymous then (.error "anonymous callers are not permitted", store, log)
  else if ∃ last ∈ store.lookup caller, i64 (nowNs - last) < minCallIntervalNs then
    (.error "rate limit: try again shortly", store, log)
  else (.ok (), store.insert caller nowNs, log ++ [(caller, nowNs)])

/-- The loop of `prune_throttle_log` with the prunes that remain in this tick. -/
def pruneThrottleLog (nowNs : Int) : ℕ → HashMap Principal Int → List (Principal × Int) →
    HashMap Principal Int × List (Principal × Int)
  | 0, store, log => (store, log)
  | _ + 1, store, [] => (store, [])
  | remaining + 1, store, (p, ts) :: rest =>
    if i64 (nowNs - ts) < throttleRetentionNs then (store, (p, ts) :: rest)
    -- a later call of the same principal has refreshed the entry, which then stays
    else pruneThrottleLog nowNs remaining (if store.lookup p = some ts then store.erase p else store) rest

def requestChallengeImpl (s : State) (caller : Principal) (nowNs : Int) (purpose : UInt64) :
    Except String ChallengeView × State :=
  match checkAndUpdateThrottle s.lastChallengeCallAt s.challengeThrottleLog caller nowNs with
  | (.error e, _) => (.error e, s)
  | (.ok (), store, log) =>
    let id := s.nextChallengeId
    let nonce := s.nextNonce
    let ts := UInt64.ofInt (nowNs.tdiv 1000000000)
    let challenge : Challenge := {
      registryId := registryId
      merkleRoot := s.currentRoot
      purpose := purpose
      requestNonce := nonce
      currentTimestamp := ts
      expiresAt := i64 (nowNs + challengeTtlNs)
      consumed := false
      requester := caller }
    let view : ChallengeView := {
      challengeId := id
      registryId := challenge.registryId
      merkleRoot := feToString challenge.merkleRoot
      purpose := challenge.purpose
      requestNonce := challenge.requestNonce
      currentTimestamp := challenge.currentTimestamp
      expiresAt := challenge.expiresAt }
    (.ok view, { s with
      lastChallengeCallAt := store
      challengeThrottleLog := log
      nextChallengeId := s.nextChallengeId + 1
      nextNonce := s.nextNonce + 1
      challenges := s.challenges.insert id challenge })

/-! ## Verify -/

/-- The checks of `verify_precheck_impl` after the throttle, in their order. -/
def checkChallenge (s : State) (caller : Principal) (nowNs : Int) (challengeId : UInt64)
    (publicInputs : VerifyPublicInputs) : Except String Unit :=
  match s.challenges.lookup challengeId with
  | none => .error "unknown or expired challenge"
  | some challenge =>
    if caller ≠ challenge.requester then
      .error "caller does not match the principal that requested this challenge"
    else if challenge.consumed then .error "challenge already consumed"
    else if nowNs > challenge.expiresAt then .error "challenge expired"
    else if publicInputs.registryId ≠ challenge.registryId then .error "registry_id mismatch"
    else match parseFe publicInputs.merkleRoot with
    | .error e => .error e
    | .ok merkleRoot =>
      if merkleRoot ≠ challenge.merkleRoot then .error "merkle_root mismatch"
      else if publicInputs.purpose ≠ challenge.purpose then .error "purpose mismatch"
      else if publicInputs.requestNonce ≠ challenge.requestNonce then .error "request_nonce mismatch"
      else if publicInputs.currentTimestamp ≠ challenge.currentTimestamp then .error "current_timestamp mismatch"
      else match canonicalNullifier publicInputs.nullifier with
      | .error e => .error e
      | .ok nullifierKey =>
        if (s.nullifiers.lookup nullifierKey).getD false then .error "nullifier already spent" else .ok ()

def verifyPrecheckImpl (s : State) (caller : Principal) (nowNs : Int) (challengeId : UInt64)
    (publicInputs : VerifyPublicInputs) : Except String Unit × State :=
  match checkAndUpdateThrottle s.lastVerifyCallAt s.verifyThrottleLog caller nowNs with
  | (.error e, _) => (.error e, s)
  | (.ok (), store, log) =>
    let s := { s with lastVerifyCallAt := store, verifyThrottleLog := log }
    (checkChallenge s caller nowNs challengeId publicInputs, s)

/-- What decoding and verifying proof bytes may come to. -/
inductive Verdict
  | undecodable (e : String)
  | rejected (e : String)
  | panicked
  | accepted

/-- `Proof::from_bytes` followed by `winterfell::verify` for `TitleAir`. -/
abbrev Winterfell : Type := List UInt8 → PublicInputs → Verdict

/-- The public inputs `verify_crypto_impl` verifies against. -/
def airPubInputs (publicInputs : VerifyPublicInputs) : Except String PublicInputs :=
  match parseFe publicInputs.merkleRoot with
  | .error e => .error e
  | .ok merkleRoot =>
    match parseFe publicInputs.nullifier with
    | .error e => .error e
    | .ok nullifierFe => .ok {
        registryId := fe publicInputs.registryId
        merkleRoot := merkleRoot
        purpose := fe publicInputs.purpose
        requestNonce := fe publicInputs.requestNonce
        currentTimestamp := fe publicInputs.currentTimestamp
        nullifier := nullifierFe }

def verifyCryptoImpl (winterfell : Winterfell) (publicInputs : VerifyPublicInputs) (proofBytes : List UInt8) :
    Except String Unit :=
  match airPubInputs publicInputs with
  | .error e => .error e
  | .ok pubInputs =>
    match winterfell proofBytes pubInputs with
    | .undecodable e => .error ("failed to decode proof bytes: " ++ e)
    | .rejected e => .error ("invalid proof: " ++ e)
    | .panicked => .error "invalid proof: verifier panicked on malformed proof data"
    | .accepted => .ok ()

def verifyCommitImpl (s : State) (challengeId : UInt64) (nullifier : String) : Except String VerifyOk × State :=
  if (s.nullifiers.lookup nullifier).getD false then (.error "nullifier already spent", s)
  else
    let s := match s.challenges.lookup challengeId with
      | some c => { s with challenges := s.challenges.insert challengeId { c with consumed := true } }
      | none => s
    (.ok ⟨nullifier⟩, { s with nullifiers := s.nullifiers.insert nullifier true })

def verify (winterfell : Winterfell) (s : State) (caller : Principal) (nowNs : Int) (challengeId : UInt64)
    (proofBytes : List UInt8) (publicInputs : VerifyPublicInputs) : Except String VerifyOk × State :=
  match verifyPrecheckImpl s caller nowNs challengeId publicInputs with
  | (.error e, s) => (.error e, s)
  | (.ok (), s) =>
    match verifyCryptoImpl winterfell publicInputs proofBytes with
    | .error e => (.error e, s)
    | .ok () =>
      match canonicalNullifier publicInputs.nullifier with
      | .error e => (.error e, s)
      | .ok nullifierKey => verifyCommitImpl s challengeId nullifierKey

/-! ## Heartbeat -/

/-- The scan of `heartbeat_impl` with the challenges that remain in this tick. -/
def pruneChallenges (nowNs : Int) : ℕ → State → State
  | 0, s => s
  | remaining + 1, s =>
    if s.oldestUnprunedChallengeId ≥ s.nextChallengeId then s
    else
      let id := s.oldestUnprunedChallengeId
      match s.challenges.lookup id with
      | none => pruneChallenges nowNs remaining { s with oldestUnprunedChallengeId := s.oldestUnprunedChallengeId + 1 }
      | some c =>
        if nowNs > c.expiresAt then
          pruneChallenges nowNs remaining { s with
            challenges := s.challenges.erase id
            oldestUnprunedChallengeId := s.oldestUnprunedChallengeId + 1 }
        else s

def heartbeatImpl (s : State) (nowNs : Int) : State :=
  let s := pruneChallenges nowNs maxPrunePerHeartbeat s
  let (store, log) := pruneThrottleLog nowNs maxPrunePerHeartbeat s.lastChallengeCallAt s.challengeThrottleLog
  let s := { s with lastChallengeCallAt := store, challengeThrottleLog := log }
  let (store, log) := pruneThrottleLog nowNs maxPrunePerHeartbeat s.lastVerifyCallAt s.verifyThrottleLog
  { s with lastVerifyCallAt := store, verifyThrottleLog := log }

def health : String := "title_verifier canister is running"

end Yaqeen.Canister
