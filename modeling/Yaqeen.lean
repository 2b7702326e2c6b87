import Yaqeen.Lib.Decimal
import Yaqeen.Lib.FinMap
import Yaqeen.Lib.HashTree
import Yaqeen.Lib.LoggedMap
import Yaqeen.Lib.Register
import Yaqeen.Lib.Runs
import Yaqeen.Lib.Simulation
import Yaqeen.Lib.Spacing
import Yaqeen.Lib.SpNetwork
import Yaqeen.Lib.Template
import Yaqeen.Lib.TopCoeff
import Yaqeen.Air.Permutation
import Yaqeen.Air.Degrees
import Yaqeen.Air.Soundness
import Yaqeen.Air.RangeCheck
import Yaqeen.Air.Language
import Yaqeen.Air.Tampering
import Yaqeen.Prover.Completeness
import Yaqeen.Prover.Refusal
import Yaqeen.Prover.SparseTree
import Yaqeen.Canister.Failures
import Yaqeen.Canister.Capacity
import Yaqeen.Canister.Codec
import Yaqeen.Canister.MerkleProof
import Yaqeen.Canister.Siblings
import Yaqeen.Canister.Nullifiers
import Yaqeen.Canister.RoundTrip
import Yaqeen.Canister.Snapshot
import Yaqeen.Canister.Challenges
import Yaqeen.Canister.Throttle
import Yaqeen.Canister.RateLimit
import Yaqeen.Canister.Pruning
import Yaqeen.Canister.Heartbeats
import Yaqeen.Canister.Restarts
import Yaqeen.Canister.Answerable
import Yaqeen.Canister.RegistryFacts
import Yaqeen.Canister.Admins
import Yaqeen.Canister.Authority
import Yaqeen.Canister.Appointments
import Yaqeen.Canister.Ledger
import Yaqeen.Canister.Provability
import Yaqeen.Canister.Submissions
import Yaqeen.Canister.Storage
import Yaqeen.Canister.Quotas
import Yaqeen.Canister.EndToEnd
import Yaqeen.Prover.Cli
import Yaqeen.Spec.Registry
import Yaqeen.Spec.Refinement
import Yaqeen.Harness.Support
import Yaqeen.Harness.Trace
