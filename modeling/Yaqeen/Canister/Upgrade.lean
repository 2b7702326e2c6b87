/-
The upgrade hooks: the snapshot taken in whatever order the maps iterate, the state restored from it,
and the throttle logs rebuilt from the restored maps in whatever order these iterate. Restoring
parses every field element of the snapshot and panics, undoing the upgrade, on text it rejects;
it never does on the text the snapshot holds.
-/
import Yaqeen.Canister.Calls

namespace Yaqeen.Canister

open Air FinMap

structure StableRecord where
  propertyId : UInt64
  ownerCommitment : String
  encumbranceFlag : UInt64
  licenseStatus : UInt64
  licenseExpiry : UInt64

structure StableChallenge where
  id : UInt64
  registryId : UInt64
  merkleRoot : String
  purpose : UInt64
  requestNonce : UInt64
  currentTimestamp : UInt64
  expiresAt : Int
  consumed : Bool
  requester : Principal

structure StableState where
  admins : List Principal
  records : List StableRecord
  leafIndexByProperty : List (UInt64 × ℕ)
  nodes : List (ℕ × ℕ × String)
  nextLeafIndex : ℕ
  challenges : List StableChallenge
  nextChallengeId : UInt64
  nextNonce : UInt64
  oldestUnprunedChallengeId : UInt64
  nullifiers : List (String × Bool)
  lastChallengeCallAt : List (Principal × Int)
  lastVerifyCallAt : List (Principal × Int)

/-- The orders in which the maps of a state iterate. -/
structure Orders (s : State) where
  records : Iteration s.records
  leafIndexByProperty : Iteration s.leafIndexByProperty
  nodes : Iteration s.nodes
  challenges : Iteration s.challenges
  nullifiers : Iteration s.nullifiers
  lastChallengeCallAt : Iteration s.lastChallengeCallAt
  lastVerifyCallAt : Iteration s.lastVerifyCallAt

def preUpgrade (s : State) (o : Orders s) : StableState where
  admins := s.admins
  records := o.records.entries.map fun (_, r) =>
    ⟨r.propertyId, r.ownerCommitment, r.encumbranceFlag, r.licenseStatus, r.licenseExpiry⟩
  leafIndexByProperty := o.leafIndexByProperty.entries
  nodes := o.nodes.entries.map fun ((level, idx), v) => (level, idx, feToString v)
  nextLeafIndex := s.nextLeafIndex
  challenges := o.challenges.entries.map fun (id, c) =>
    ⟨id, c.registryId, feToString c.merkleRoot, c.purpose, c.requestNonce, c.currentTimestamp, c.expiresAt,
      c.consumed, c.requester⟩
  nextChallengeId := s.nextChallengeId
  nextNonce := s.nextNonce
  oldestUnprunedChallengeId := s.oldestUnprunedChallengeId
  nullifiers := o.nullifiers.entries
  lastChallengeCallAt := o.lastChallengeCallAt.entries
  lastVerifyCallAt := o.lastVerifyCallAt.entries

def restoreRecord (r : StableRecord) : UInt64 × Record :=
  (r.propertyId, ⟨r.propertyId, r.ownerCommitment, r.encumbranceFlag, r.licenseStatus, r.licenseExpiry⟩)

def restoreNode (n : ℕ × ℕ × String) : Except String ((ℕ × ℕ) × BaseElement) :=
  (parseFe n.2.2).map fun v => ((n.1, n.2.1), v)

def restoreChallenge (c : StableChallenge) : Except String (UInt64 × Challenge) :=
  (parseFe c.merkleRoot).map fun root =>
    (c.id, ⟨c.registryId, root, c.purpose, c.requestNonce, c.currentTimestamp, c.expiresAt, c.consumed, c.requester⟩)

/-- `post_upgrade` up to the rebuilding of the logs; an error is a panic. -/
def postUpgrade (snapshot : StableState) : Except String State := do
  let zeroHashes := initZeroHashes
  let nodes := collect (← snapshot.nodes.mapM restoreNode)
  let challenges := collect (← snapshot.challenges.mapM restoreChallenge)
  return {
    zeroHashes := zeroHashes
    admins := snapshot.admins
    records := collect (snapshot.records.map restoreRecord)
    leafIndexByProperty := collect snapshot.leafIndexByProperty
    nodes := nodes
    currentRoot := (nodes.lookup (treeDepth, 0)).getD (zeroHashes.getD treeDepth 0)
    nextLeafIndex := snapshot.nextLeafIndex
    challenges := challenges
    nextChallengeId := snapshot.nextChallengeId
    nextNonce := snapshot.nextNonce
    oldestUnprunedChallengeId := snapshot.oldestUnprunedChallengeId
    nullifiers := collect snapshot.nullifiers
    lastChallengeCallAt := collect snapshot.lastChallengeCallAt
    lastVerifyCallAt := collect snapshot.lastVerifyCallAt
    challengeThrottleLog := []
    verifyThrottleLog := [] }

def rebuildLogs (s : State) (challenge : Iteration s.lastChallengeCallAt) (verify : Iteration s.lastVerifyCallAt) :
    State :=
  { s with challengeThrottleLog := challenge.entries, verifyThrottleLog := verify.entries }

/-! ## What an upgrade restores -/

theorem mapM_ok {α β : Type} {f : α → Except String β} {g : α → β} (h : ∀ a, f a = .ok (g a)) :
    ∀ l : List α, l.mapM f = .ok (l.map g)
  | [] => rfl
  | a :: l => by
    rw [List.mapM_cons, h, mapM_ok h l]
    rfl

/-- Every state has orders in which its maps iterate. -/
theorem exists_orders (s : State) : Nonempty (Orders s) := by
  obtain ⟨records⟩ := exists_iteration s.records
  obtain ⟨leafIndexByProperty⟩ := exists_iteration s.leafIndexByProperty
  obtain ⟨nodes⟩ := exists_iteration s.nodes
  obtain ⟨challenges⟩ := exists_iteration s.challenges
  obtain ⟨nullifiers⟩ := exists_iteration s.nullifiers
  obtain ⟨lastChallengeCallAt⟩ := exists_iteration s.lastChallengeCallAt
  obtain ⟨lastVerifyCallAt⟩ := exists_iteration s.lastVerifyCallAt
  exact ⟨⟨records, leafIndexByProperty, nodes, challenges, nullifiers, lastChallengeCallAt, lastVerifyCallAt⟩⟩

/-- The records of a state sit under their own property ids. -/
def Keyed (s : State) : Prop := ∀ k r, s.records.lookup k = some r → r.propertyId = k

/-- Restoring a snapshot never panics: it gives back every field, with the root read off the stored
nodes and the logs empty. -/
theorem postUpgrade_preUpgrade {s : State} (hk : Keyed s) (o : Orders s) :
    postUpgrade (preUpgrade s o) = .ok { s with
      zeroHashes := initZeroHashes
      currentRoot := (s.nodes.lookup (treeDepth, 0)).getD (initZeroHashes.getD treeDepth 0)
      challengeThrottleLog := []
      verifyThrottleLog := [] } := by
  have hrec : (preUpgrade s o).records.map restoreRecord = o.records.entries := by
    unfold preUpgrade
    rw [List.map_map]
    refine List.map_congr_left (g := id) (fun e he => ?_) |>.trans (List.map_id _)
    obtain ⟨k, r⟩ := e
    have := hk k r ((o.records.mem k r).1 he)
    subst this
    rfl
  have hnodes : (preUpgrade s o).nodes.mapM restoreNode = .ok o.nodes.entries := by
    show List.mapM restoreNode (o.nodes.entries.map _) = _
    rw [List.mapM_map, mapM_ok (g := id) fun e => ?_, List.map_id]
    simp only [Function.comp, restoreNode, parseFe_feToString]
    rfl
  have hch : (preUpgrade s o).challenges.mapM restoreChallenge = .ok o.challenges.entries := by
    show List.mapM restoreChallenge (o.challenges.entries.map _) = _
    rw [List.mapM_map, mapM_ok (g := id) fun e => ?_, List.map_id]
    simp only [Function.comp, restoreChallenge, parseFe_feToString]
    rfl
  unfold postUpgrade
  rw [hnodes, hch, hrec]
  show Except.ok _ = Except.ok _
  simp only [preUpgrade, collect_iteration]

end Yaqeen.Canister
