/-
The canister's data: records, challenges, the inputs and answers of its calls, and the state, with
its initial value. Hash maps are finite maps; `VecDeque` logs are lists, front first.
-/
import Yaqeen.Canister.Text
import Yaqeen.Air.Title
import Yaqeen.Lib.FinMap

namespace Yaqeen.Canister

open Air FinMap

/-! ## Principals and time -/

structure Principal where
  bytes : List UInt8
  deriving DecidableEq

def Principal.anonymous : Principal := ⟨[4]⟩

/-- A reading of `ic_cdk::api::time()`, in nanoseconds since 1970, that fits an `i64`. -/
structure Time where
  ns : Int
  nonneg : 0 ≤ ns
  lt : ns < 2 ^ 63

/-- The `i64` with the two's complement bits of an integer. -/
def i64 (x : Int) : Int := Int.bmod x (2 ^ 64)

theorem i64_of_range {x : Int} (h0 : -2 ^ 63 ≤ x) (h1 : x < 2 ^ 63) : i64 x = x := by
  unfold i64 Int.bmod
  norm_num
  omega

/-! ## Records, challenges and inputs -/

structure Record where
  propertyId : UInt64
  ownerCommitment : String
  encumbranceFlag : UInt64
  licenseStatus : UInt64
  licenseExpiry : UInt64
  deriving DecidableEq

structure MerkleProof where
  leafIndex : ℕ
  siblings : List String
  pathBits : List Bool
  root : String

structure ChallengeView where
  challengeId : UInt64
  registryId : UInt64
  merkleRoot : String
  purpose : UInt64
  requestNonce : UInt64
  currentTimestamp : UInt64
  expiresAt : Int

structure Challenge where
  registryId : UInt64
  merkleRoot : BaseElement
  purpose : UInt64
  requestNonce : UInt64
  currentTimestamp : UInt64
  expiresAt : Int
  consumed : Bool
  requester : Principal

structure VerifyPublicInputs where
  registryId : UInt64
  merkleRoot : String
  purpose : UInt64
  requestNonce : UInt64
  currentTimestamp : UInt64
  nullifier : String

structure VerifyOk where
  nullifier : String

/-! ## State -/

abbrev challengeTtlNs : Int := 5 * 60 * 1000000000
abbrev minCallIntervalNs : Int := 2000000000
abbrev maxPrunePerHeartbeat : ℕ := 50
abbrev registryId : UInt64 := 1
abbrev throttleRetentionNs : Int := 60 * 60 * 1000000000

structure State where
  admins : List Principal
  records : HashMap UInt64 Record
  leafIndexByProperty : HashMap UInt64 ℕ
  zeroHashes : List BaseElement
  nodes : HashMap (ℕ × ℕ) BaseElement
  currentRoot : BaseElement
  nextLeafIndex : ℕ
  challenges : HashMap UInt64 Challenge
  nextChallengeId : UInt64
  nextNonce : UInt64
  oldestUnprunedChallengeId : UInt64
  nullifiers : HashMap String Bool
  lastChallengeCallAt : HashMap Principal Int
  lastVerifyCallAt : HashMap Principal Int
  -- calls in insertion order, backing the pruning of the two maps above
  challengeThrottleLog : List (Principal × Int)
  verifyThrottleLog : List (Principal × Int)

/-- The root of an empty subtree of a height. -/
def zeroHash : ℕ → BaseElement
  | 0 => 0
  | level + 1 => nodeHash (zeroHash level) (zeroHash level)

def initZeroHashes : List BaseElement := (List.range (treeDepth + 1)).map zeroHash

def freshState : State where
  admins := []
  records := ∅
  leafIndexByProperty := ∅
  zeroHashes := initZeroHashes
  nodes := ∅
  currentRoot := initZeroHashes.getD treeDepth 0
  nextLeafIndex := 0
  challenges := ∅
  nextChallengeId := 0
  nextNonce := 0
  oldestUnprunedChallengeId := 0
  nullifiers := ∅
  lastChallengeCallAt := ∅
  lastVerifyCallAt := ∅
  challengeThrottleLog := []
  verifyThrottleLog := []

def isAdmin (s : State) (p : Principal) : Bool := s.admins.any fun a => a = p

theorem initZeroHashes_getD {level : ℕ} (h : level ≤ treeDepth) : initZeroHashes.getD level 0 = zeroHash level := by
  unfold initZeroHashes
  rw [List.getD_eq_getElem?_getD, List.getElem?_map, List.getElem?_range (Nat.lt_succ_of_le h)]
  rfl

end Yaqeen.Canister
