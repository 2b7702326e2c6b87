/-
The "RPO-lite" permutation and the hash built on it: round constants expanded from a seed by
xorshift, a cube S-box, a small circulant mixing layer, and seven of the eight rounds applied to
the zero-padded inputs, with lane 0 as the digest.
-/
import Yaqeen.Air.Field

namespace Yaqeen.Air

/-! ## Parameters -/

abbrev stateWidth : ℕ := 8
abbrev rounds : ℕ := 8

def domainLeaf : ℕ := 1
def domainOwnerCommitment : ℕ := 2
def domainNullifier : ℕ := 3
def domainNode : ℕ := 4

-- one instance behind the lane, round and auxiliary numerals of all modules
instance neZero_eight : NeZero 8 := ⟨by decide⟩
instance neZero_four : NeZero 4 := ⟨by decide⟩

/-- The eight lanes of the permutation state, over any field the constraints are evaluated in. -/
abbrev Lanes (E : Type) : Type := Fin 8 → E

/-! ## Round constants -/

/-- One xorshift step of the constant expansion. -/
def nextSeed (seed : UInt64) : UInt64 :=
  let seed := seed ^^^ (seed <<< 13)
  let seed := seed ^^^ (seed >>> 7)
  seed ^^^ (seed <<< 17)

/-- The `n`-th value drawn from the seed. -/
def draw : ℕ → UInt64
  | 0 => 0x54415145454e2d31
  | n + 1 => nextSeed (draw n)

/-- The constant of a lane in a round: two draws, high half first, drawn round by round and lane by
lane. -/
def roundConstants (r : Fin 8) (lane : Fin 8) : BaseElement :=
  let drawn := 2 * (stateWidth * r.val + lane.val)
  BaseElement.new ((draw (drawn + 1)).toNat <<< 64 ||| (draw (drawn + 2)).toNat)

/-! ## The permutation -/

section

variable {E : Type} [CommRing E] [Algebra BaseElement E]

/-- The first row of the circulant matrix of the mixing layer. -/
def mixCoeffs : Fin 8 → ℕ := ![2, 3, 1, 1, 1, 1, 1, 1]

def mix (state : Lanes E) : Lanes E := fun i =>
  ∑ j, state (i + j) * algebraMap BaseElement E (BaseElement.new (mixCoeffs j))

def sbox (state : Lanes E) : Lanes E := fun i => state i ^ 3

/-- One round: add the round constants, cube, mix. -/
def applyRound (state roundConstants : Lanes E) : Lanes E :=
  mix (sbox fun i => state i + roundConstants i)

end

/-- The state after the first `n` rounds. -/
def runRounds : ℕ → Lanes BaseElement → Lanes BaseElement
  | 0, state => state
  | n + 1, state => applyRound (runRounds n state) (roundConstants (Fin.ofNat 8 n))

/-- The inputs in the first lanes, zero in the others. -/
def absorb (inputs : List BaseElement) : Lanes BaseElement := fun i => inputs.getD i 0

/-- The digest of at most `stateWidth` inputs, the length every caller keeps to. It applies
`rounds − 1` rounds, as many as a job of the trace has row-to-row steps. -/
def hash (inputs : List BaseElement) : BaseElement := runRounds (rounds - 1) (absorb inputs) 0

theorem hash_def (inputs : List BaseElement) : hash inputs = runRounds 7 (absorb inputs) 0 := rfl

-- so that elaboration never evaluates the permutation
attribute [irreducible] hash

/-- The digest of a tree node. -/
def nodeHash (left right : BaseElement) : BaseElement := hash [BaseElement.new domainNode, left, right]

theorem nodeHash_def (left right : BaseElement) :
    nodeHash left right = runRounds 7 (absorb [BaseElement.new domainNode, left, right]) 0 := hash_def _

end Yaqeen.Air
