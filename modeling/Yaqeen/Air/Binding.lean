/-
Binding of a satisfying table to a hash tree: where the hash does not collide on the inputs the table
absorbs and on those of a tree with the public root, the digest of the leaf job is a leaf of that tree and
the Merkle jobs walk its path.
-/
import Yaqeen.Air.Jobs

namespace Yaqeen.Air

open HashTree

theorem absorbed_three (a b c : BaseElement) : [0, 1, 2].map (absorb [a, b, c]) = [a, b, c] := rfl

theorem absorbed_six (a b c d e f : BaseElement) :
    [0, 1, 2, 3, 4, 5].map (absorb [a, b, c, d, e, f]) = [a, b, c, d, e, f] := rfl

/-- The inputs the jobs from the leaf job to the last Merkle job absorb: six lanes and three lanes. -/
def TraceTable.absorbedInputs (t : TraceTable) : Set (List BaseElement) :=
  {x | x = [0, 1, 2, 3, 4, 5].map (t.lanes (jobStartRow jobLeaf)) ∨
    ∃ job, jobMerkleFirst ≤ job ∧ job ≤ jobMerkleLast ∧ x = [0, 1, 2].map (t.lanes (jobStartRow job))}

/-- The inputs of the nodes of a tree. -/
def treeInputs (leaf : ℕ → BaseElement) : Set (List BaseElement) :=
  {x | ∃ l < treeDepth, ∃ i < 2 ^ (treeDepth - (l + 1)),
    x = [BaseElement.new domainNode, fullNode nodeHash leaf l (2 * i), fullNode nodeHash leaf l (2 * i + 1)]}

/-- Where the hash does not collide the hash of two nodes does not. -/
theorem nodeHash_injOn {T : Set (List BaseElement)} (hinj : T.InjOn hash) :
    ({p | [BaseElement.new domainNode, p.1, p.2] ∈ T} : Set (BaseElement × BaseElement)).InjOn
      fun p => nodeHash p.1 p.2 := by
  intro p hp q hq hpq
  have hpair := hinj hp hq hpq
  simp only [List.cons.injEq, and_true, true_and] at hpair
  exact Prod.ext hpair.1 hpair.2

theorem treePairs_subset {T : Set (List BaseElement)} {leaf : ℕ → BaseElement} (htree : treeInputs leaf ⊆ T) :
    treePairs nodeHash leaf treeDepth ⊆ {p | [BaseElement.new domainNode, p.1, p.2] ∈ T} := by
  rintro _ ⟨l, i, hl, hi, rfl⟩
  exact htree ⟨l, hl, i, hi, rfl⟩

section

variable {pubInputs : PublicInputs} {t : TraceTable} (h : Satisfies pubInputs t)

include h

theorem leaf_absorbed :
    [BaseElement.new domainLeaf, pubInputs.registryId, t.row 7 s0, 0, 1, t.row 8 auxD] ∈ t.absorbedInputs := by
  refine .inl ?_
  rw [show jobStartRow jobLeaf = 8 from rfl, leaf_lanes h, absorbed_six]

/-- The pairs hashed along the fold of the Merkle jobs are absorbed by them. -/
theorem merkle_pairs_absorbed : ∀ n ≤ 25, ∀ p ∈ foldPairs nodeHash (t.row 15 s0) ((List.range n).map t.merkleStep),
    [BaseElement.new domainNode, p.1, p.2] ∈ t.absorbedInputs
  | 0, _, p, hp => by cases hp
  | n + 1, hn, p, hp => by
    rw [List.range_succ, List.map_append, foldPairs_append, ← merkle_fold h n (by omega)] at hp
    rcases List.mem_append.1 hp with hp | hp
    · exact merkle_pairs_absorbed n (by omega) p hp
    · -- the pair of the last level is what its job absorbs
      have hp : p = if (t.merkleStep n).2 then ((t.merkleStep n).1, t.row (8 * (1 + n) + 7) s0)
          else (t.row (8 * (1 + n) + 7) s0, (t.merkleStep n).1) := List.mem_singleton.1 hp
      refine .inr ⟨2 + n, by norm_num, by norm_num; omega, ?_⟩
      rw [show jobStartRow (2 + n) = 8 * (2 + n) from Nat.mul_comm _ _, merkle_lanes h (by omega), absorbed_three, hp]
      cases (t.merkleStep n).2 <;> rfl

/-- A table for the root of a tree hashes one of its leaves, and its Merkle jobs walk the tree's own path from it. -/
theorem path_of_tree {T : Set (List BaseElement)} (hinj : T.InjOn hash) (ht : t.absorbedInputs ⊆ T)
    {leaf : ℕ → BaseElement} (htree : treeInputs leaf ⊆ T)
    (hroot : pubInputs.merkleRoot = fullNode nodeHash leaf treeDepth 0) :
    ∃ i < 2 ^ treeDepth, t.row 15 s0 = leaf i ∧
      (List.range 25).map t.merkleStep = path (fullNode nodeHash leaf) treeDepth 0 i := by
  refine (foldPath_eq_root_iff (nodeHash_injOn hinj) (treePairs_subset htree) ?_ (by simp)).1 ?_
  · exact fun p hp => ht (merkle_pairs_absorbed h 25 le_rfl p hp)
  · exact (merkle_root h).trans hroot

end

end Yaqeen.Air
