/-
The production trace builder: the witness, the job runner that writes one hash job into the columns,
and the sequence of jobs, with the digests they return chained by hand. `none` is a panic: an
expiry not after the timestamp, or too few siblings or bits.
-/
import Yaqeen.Air.Title

namespace Yaqeen.Prover

open Air

structure Witness where
  -- public
  registryId : BaseElement
  purpose : BaseElement
  requestNonce : BaseElement
  currentTimestamp : UInt64
  -- private
  ownerSecret : BaseElement
  propertyId : BaseElement
  licenseExpiry : UInt64
  merkleSiblings : List BaseElement
  merkleBits : List Bool

def toBitsLe (v : UInt64) (n : ℕ) : List BaseElement :=
  (List.range n).map fun i => BaseElement.new ((v.toNat >>> i) &&& 1)

/-- `cols[col][row] = v`, for a row within the trace. -/
def write (cols : TraceTable) (col : Fin 50) (row : ℕ) (v : BaseElement) : TraceTable := fun r c =>
  if r.val = row ∧ c = col then v else cols r c

def writeLanes (cols : TraceTable) (row : ℕ) (state : Lanes BaseElement) : TraceTable :=
  (List.finRange stateWidth).foldl (fun cols lane => write cols (stateCol lane) row (state lane)) cols

/-- Runs one eight-row hash job and returns its digest. -/
def runJob (cols : TraceTable) (job : ℕ) (initialState : Lanes BaseElement) (aux : Fin 4 → BaseElement) :
    TraceTable × BaseElement :=
  let start := jobStartRow job
  let tCol := jobTypeColumn job
  let cols := (List.range rounds).foldl (fun cols r => write cols tCol (start + r) 1) cols
  let cols := write cols auxA start (aux 0)
  let cols := write cols auxB start (aux 1)
  let cols := write cols auxC start (aux 2)
  let cols := write cols auxD start (aux 3)
  let cols := writeLanes cols start initialState
  let out := (List.range (rounds - 1)).foldl
    (fun (p : TraceTable × Lanes BaseElement) r =>
      let state := applyRound p.2 (roundConstants (Fin.ofNat 8 r))
      (writeLanes p.1 (start + r + 1) state, state))
    (cols, initialState)
  (out.1, out.2 0)

/-- The held columns on every row and zero elsewhere. -/
def initialCols (w : Witness) : TraceTable := fun _ c =>
  if c = heldSecret then w.ownerSecret else if c = heldPid then w.propertyId else 0

/-- The bits of `license_expiry - current_timestamp - 1`, written on the leaf job's first row. -/
def writeRangeBits (w : Witness) (cols : TraceTable) : Option TraceTable := do
  guard (w.currentTimestamp ≤ w.licenseExpiry)
  guard (1 ≤ w.licenseExpiry - w.currentTimestamp)
  let bits := toBitsLe (w.licenseExpiry - w.currentTimestamp - 1) 32
  return (List.finRange 32).foldl
    (fun cols i => write cols (rcBit i) (jobStartRow jobLeaf) (bits.getD i.val 0)) cols

/-- The Merkle step at a level: the digest so far on the side its bit says. -/
def merkleJob (w : Witness) (p : TraceTable × BaseElement) (level : ℕ) : Option (TraceTable × BaseElement) := do
  let sibling ← w.merkleSiblings[level]?
  let isRight ← w.merkleBits[level]?
  let bit : BaseElement := if isRight then 1 else 0
  let left := if isRight then sibling else p.2
  let right := if isRight then p.2 else sibling
  return runJob p.1 (jobMerkleFirst + level) ![BaseElement.new domainNode, left, right, 0, 0, 0, 0, 0]
    ![sibling, bit, 0, 0]

def buildTrace (w : Witness) : Option (TraceTable × PublicInputs) := do
  let (cols, ownerCommitment) := runJob (initialCols w) jobOwner
    ![BaseElement.new domainOwnerCommitment, w.ownerSecret, w.propertyId, 0, 0, 0, 0, 0] ![0, 0, 0, 0]
  let licenseExpiryFe := BaseElement.new w.licenseExpiry.toNat
  let (cols, leaf) := runJob cols jobLeaf
    ![BaseElement.new domainLeaf, w.registryId, ownerCommitment, 0, 1, licenseExpiryFe, 0, 0]
    ![w.registryId, 0, 1, licenseExpiryFe]
  let cols ← writeRangeBits w cols
  let (cols, merkleRoot) ← (List.range treeDepth).foldlM (merkleJob w) (cols, leaf)
  let (cols, nullifier) := runJob cols jobNullifier
    ![BaseElement.new domainNullifier, w.ownerSecret, w.propertyId, w.purpose, w.requestNonce, 0, 0, 0]
    ![w.purpose, w.requestNonce, 0, 0]
  -- padding jobs hash forward so that every row meets the round formula
  let (cols, _) := (List.range' (jobNullifier + 1) (jobCount - (jobNullifier + 1))).foldl
    (fun (p : TraceTable × BaseElement) job =>
      runJob p.1 job ![BaseElement.new domainNode, p.2, 0, 0, 0, 0, 0, 0] ![0, 0, 0, 0])
    (cols, nullifier)
  return (cols, {
    registryId := w.registryId
    merkleRoot := merkleRoot
    purpose := w.purpose
    requestNonce := w.requestNonce
    currentTimestamp := BaseElement.new w.currentTimestamp.toNat
    nullifier := nullifier })

end Yaqeen.Prover
