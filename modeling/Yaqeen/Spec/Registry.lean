/-
What the canister is for, without its means: a set of admins, titles in the order of their first
submission, every challenge ever issued, the spent nullifiers, and when each principal last got past a
throttle. No map, cache, cursor, log or stable copy; nothing is pruned, saved or restored. The texts of
errors are left open, the conditions of success are not.
-/
import Yaqeen.Canister.Submissions
import Yaqeen.Canister.RateLimit

namespace Yaqeen.Spec

open Air Canister

deriving instance DecidableEq for Method

/-- A challenge, told apart by its number in the order of issue. -/
structure Issue where
  root : BaseElement
  purpose : UInt64
  requester : Principal
  issuedAt : Time
  answered : Bool

structure Registry where
  admins : Finset Principal
  titles : Titles
  issues : List Issue
  spent : Finset BaseElement
  lastCall : Method → Principal → Option Time

def init : Registry := ⟨∅, Register.empty, [], ∅, fun _ _ => none⟩

namespace Issue

/-- Whole seconds since 1970 at the time of issue. -/
def timestamp (c : Issue) : UInt64 := UInt64.ofNat (c.issuedAt.ns / 1000000000).toNat

def deadline (c : Issue) : Int := c.issuedAt.ns + challengeTtlNs

/-- What the requester is told; the nonce is the number. -/
def view (id : UInt64) (c : Issue) : ChallengeView :=
  ⟨id, registryId, feToString c.root, c.purpose, id, c.timestamp, c.deadline⟩

/-- What a proof for the challenge must show. -/
def statement (id : UInt64) (c : Issue) (v : BaseElement) : PublicInputs :=
  ⟨fe registryId, c.root, fe c.purpose, fe id, fe c.timestamp, v⟩

end Issue

namespace Registry

/-- A principal got past the throttle of a method less than the minimal interval ago. -/
def Hurried (a : Registry) (m : Method) (p : Principal) (now : Time) : Prop :=
  ∃ t ∈ a.lastCall m p, now.ns - t.ns < minCallIntervalNs

/-- A call that got past the throttle. -/
def noted (a : Registry) (m : Method) (p : Principal) (now : Time) : Registry :=
  { a with lastCall := fun m' p' => if m' = m ∧ p' = p then some now else a.lastCall m' p' }

/-- The submission repeats the values of a live, unanswered challenge of the caller, its nullifier is
fresh, and its proof is accepted for the statement of the challenge. -/
structure Accepts (a : Registry) (w : Winterfell) (caller : Principal) (now : Time) (id : UInt64)
    (proofBytes : List UInt8) (publicInputs : VerifyPublicInputs) (c : Issue) (v : BaseElement) : Prop where
  issued : a.issues[id.toNat]? = some c
  requester : caller = c.requester
  unanswered : c.answered = false
  inTime : now.ns ≤ c.deadline
  registryId : publicInputs.registryId = registryId
  merkleRoot : parseFe publicInputs.merkleRoot = .ok c.root
  purpose : publicInputs.purpose = c.purpose
  requestNonce : publicInputs.requestNonce = id
  currentTimestamp : publicInputs.currentTimestamp = c.timestamp
  nullifier : parseFe publicInputs.nullifier = .ok v
  unspent : v ∉ a.spent
  proof : w proofBytes (c.statement id v) = .accepted

/-- A challenge answered, its nullifier spent. -/
def answer (a : Registry) (id : UInt64) (c : Issue) (v : BaseElement) : Registry :=
  { a with issues := a.issues.set id.toNat { c with answered := true }, spent := insert v a.spent }

end Registry

/-- A call succeeds exactly under the condition of its first rule; ticks and upgrades do nothing. -/
inductive Step (a : Registry) : Event → Registry → Prop
  | bootstrapped {w caller now p} : a.admins = ∅ →
      Step a (.call w caller now (.bootstrapAdmin true p) (.done (.ok ()))) { a with admins := {p} }
  | bootstrapRefused {w caller now b p e} : b = false ∨ a.admins ≠ ∅ →
      Step a (.call w caller now (.bootstrapAdmin b p) (.done (.error e))) a
  | added {w caller now p} : caller ∈ a.admins →
      Step a (.call w caller now (.addAdmin p) (.done (.ok ()))) { a with admins := insert p a.admins }
  | addRefused {w caller now p e} : caller ∉ a.admins → Step a (.call w caller now (.addAdmin p) (.done (.error e))) a
  | removed {w caller now p} : caller ∈ a.admins → 1 < a.admins.card →
      Step a (.call w caller now (.removeAdmin p) (.done (.ok ()))) { a with admins := a.admins.erase p }
  | removeRefused {w caller now p e} : caller ∉ a.admins ∨ a.admins.card ≤ 1 →
      Step a (.call w caller now (.removeAdmin p) (.done (.error e))) a
  | submitted {w caller now} (t : Title) : caller ∈ a.admins →
      Step a (.call w caller now (.submitRecord t.record) (.root (.ok (feToString (Titles.root (a.titles.enter t))))))
        { a with titles := a.titles.enter t }
  | submitRefused {w caller now record e} : caller ∉ a.admins ∨ (∀ c, parseFe record.ownerCommitment ≠ .ok c) →
      Step a (.call w caller now (.submitRecord record) (.root (.error e))) a
  | read {w caller now p} :
      Step a (.call w caller now (.getRecord p) (.record ((a.titles.get p).map Title.record))) a
  | proved {w caller now p} :
      Step a (.call w caller now (.getMerkleProof p) (.proof ((a.titles.slot p).map a.titles.proof))) a
  | issued {w caller now purpose} (c : Issue) : caller ≠ Principal.anonymous →
      ¬ a.Hurried .requestChallenge caller now → c = ⟨a.titles.root, purpose, caller, now, false⟩ →
      Step a (.call w caller now (.requestChallenge purpose)
          (.challenge (.ok (c.view (UInt64.ofNat a.issues.length)))))
        { a.noted .requestChallenge caller now with issues := a.issues ++ [c] }
  | issueRefused {w caller now purpose e} : caller = Principal.anonymous ∨ a.Hurried .requestChallenge caller now →
      Step a (.call w caller now (.requestChallenge purpose) (.challenge (.error e))) a
  | accepted {w caller now id proofBytes publicInputs c v} : caller ≠ Principal.anonymous →
      ¬ a.Hurried .verify caller now → a.Accepts w caller now id proofBytes publicInputs c v →
      Step a (.call w caller now (.verify id proofBytes publicInputs) (.verified (.ok ⟨feToString v⟩)))
        ((a.answer id c v).noted .verify caller now)
  | rejected {w caller now id proofBytes publicInputs e} : caller ≠ Principal.anonymous →
      ¬ a.Hurried .verify caller now → (∀ c v, ¬ a.Accepts w caller now id proofBytes publicInputs c v) →
      Step a (.call w caller now (.verify id proofBytes publicInputs) (.verified (.error e))) (a.noted .verify caller now)
  | verifyRefused {w caller now id proofBytes publicInputs e} :
      caller = Principal.anonymous ∨ a.Hurried .verify caller now →
      Step a (.call w caller now (.verify id proofBytes publicInputs) (.verified (.error e))) a
  | health {w caller now} : Step a (.call w caller now .health (.health Canister.health)) a
  | heartbeat {now} : Step a (.heartbeat now) a
  | upgrade {now} : Step a (.upgrade now) a

end Yaqeen.Spec
