/-
The prover's own sparse tree, written apart from the canister's: it keeps no root beside its nodes
and builds proofs of field elements. Fed the same leaves, the two trees have the same nodes, root
and proofs.
-/
import Yaqeen.Canister.MerkleProof

namespace Yaqeen.Prover

open Air FinMap HashTree Canister

/-! ## The tree -/

structure SparseTree where
  zeroHashes : List BaseElement
  nodes : HashMap (ℕ × ℕ) BaseElement

namespace SparseTree

/-- One level of the loop of `new`. -/
def zeroLevel (zeroHashes : List BaseElement) (level : ℕ) : List BaseElement :=
  let z := zeroHashes.getD (level - 1) 0
  zeroHashes.set level (Air.hash [BaseElement.new domainNode, z, z])

def new : SparseTree where
  zeroHashes := (List.range' 1 treeDepth).foldl zeroLevel (List.replicate (treeDepth + 1) 0)
  nodes := ∅

def nodeAt (t : SparseTree) (level index : ℕ) : BaseElement :=
  (t.nodes.lookup (level, index)).getD (t.zeroHashes.getD level 0)

/-- One level of the loop of `insert_leaf`, on the tree, the index and the digest reached so far. -/
def insertLevel (p : SparseTree × ℕ × BaseElement) (level : ℕ) : SparseTree × ℕ × BaseElement :=
  let (t, idx, cur) := p
  let pairBase := idx / 2 * 2
  let siblingIndex := if idx = pairBase then pairBase + 1 else pairBase
  let sibling := t.nodeAt level siblingIndex
  let (l, r) := if idx % 2 = 0 then (cur, sibling) else (sibling, cur)
  let cur := Air.hash [BaseElement.new domainNode, l, r]
  let idx := idx / 2
  ({ t with nodes := t.nodes.insert (level + 1, idx) cur }, idx, cur)

def insertLeaf (t : SparseTree) (index : ℕ) (leaf : BaseElement) : SparseTree :=
  ((List.range treeDepth).foldl insertLevel ({ t with nodes := t.nodes.insert (0, index) leaf }, index, leaf)).1

def root (t : SparseTree) : BaseElement := t.nodeAt treeDepth 0

/-- One level of the loop of `proof`, on the siblings, the bits and the index reached so far. -/
def proofLevel (t : SparseTree) (p : List BaseElement × List Bool × ℕ) (level : ℕ) :
    List BaseElement × List Bool × ℕ :=
  let (siblings, bits, idx) := p
  let pairBase := idx / 2 * 2
  let siblingIndex := if idx = pairBase then pairBase + 1 else pairBase
  (siblings ++ [t.nodeAt level siblingIndex], bits ++ [decide (idx % 2 = 1)], idx / 2)

/-- The siblings and bits from a leaf up; a set bit means the tracked node is the right child. -/
def proof (t : SparseTree) (index : ℕ) : List BaseElement × List Bool :=
  let (siblings, bits, _) := (List.range treeDepth).foldl t.proofLevel ([], [], index)
  (siblings, bits)

end SparseTree

/-! ## Zero hashes -/

/-- After `n` levels of the loop of `new`, the entries up to level `n` are filled and the others zero. -/
theorem zeroHashes_loop (m : ℕ) : ∀ n ≤ m, (List.range' 1 n).foldl SparseTree.zeroLevel (List.replicate (m + 1) 0) =
    (List.range (n + 1)).map zeroHash ++ List.replicate (m - n) 0
  | 0, _ => rfl
  | n + 1, hn => by
    have hlen : ((List.range (n + 1)).map zeroHash).length = n + 1 := by rw [List.length_map, List.length_range]
    rw [List.range'_1_concat, List.foldl_append, zeroHashes_loop m n (by omega), List.foldl_cons, List.foldl_nil]
    have hz : ((List.range (n + 1)).map zeroHash ++ List.replicate (m - n) 0).getD (1 + n - 1) 0 = zeroHash n := by
      rw [Nat.add_sub_cancel_left, List.getD_eq_getElem?_getD, List.getElem?_append_left (by omega),
        List.getElem?_map, List.getElem?_range (by omega)]
      rfl
    rw [SparseTree.zeroLevel, hz, List.set_append_right _ _ (by omega), hlen, show 1 + n - (n + 1) = 0 by omega,
      show m - n = m - (n + 1) + 1 by omega, List.replicate_succ, List.set_cons_zero, List.range_succ (n := n + 1),
      List.map_append, List.append_assoc]
    rfl

theorem new_zeroHashes : SparseTree.new.zeroHashes = initZeroHashes :=
  (zeroHashes_loop treeDepth treeDepth le_rfl).trans (List.append_nil _)

/-! ## Lockstep with the canister -/

/-- The two trees hold the same nodes. -/
structure Mirrors (t : SparseTree) (s : State) : Prop where
  zeroHashes : t.zeroHashes = s.zeroHashes
  nodes : t.nodes = s.nodes

theorem mirrors_new : Mirrors SparseTree.new freshState := ⟨new_zeroHashes, rfl⟩

theorem Mirrors.nodeAt {t : SparseTree} {s : State} (h : Mirrors t s) (level index : ℕ) :
    t.nodeAt level index = Canister.nodeAt s level index := by
  unfold SparseTree.nodeAt Canister.nodeAt
  rw [h.nodes, h.zeroHashes]

/-- Storing the same node keeps the trees alike. -/
theorem Mirrors.insert {t : SparseTree} {s : State} (h : Mirrors t s) (level index : ℕ) (x : BaseElement) :
    Mirrors { t with nodes := t.nodes.insert (level, index) x } (withNode s level index x) :=
  ⟨h.zeroHashes, congrArg (fun nodes => nodes.insert (level, index) x) h.nodes⟩

/-- One level of the prover's loop stores the parent of the current node and its sibling. -/
theorem insertLevel_eq (t : SparseTree) (level idx : ℕ) (cur : BaseElement) :
    SparseTree.insertLevel (t, idx, cur) level =
      let parent := join nodeHash (decide (idx % 2 = 1)) cur (t.nodeAt level (sibling idx))
      ({ t with nodes := t.nodes.insert (level + 1, idx / 2) parent }, idx / 2, parent) := by
  unfold SparseTree.insertLevel join nodeHash sibling
  rcases Nat.mod_two_eq_zero_or_one idx with h | h
  · simp only [h, if_true, zero_ne_one, decide_false, Bool.false_eq_true, if_false]
  · simp only [h, one_ne_zero, if_false, decide_true, if_true]

theorem Mirrors.insertLoop : ∀ n {t : SparseTree} {s : State}, Mirrors t s → ∀ level idx cur,
    Mirrors ((List.range' level n).foldl SparseTree.insertLevel (t, idx, cur)).1 (insertLeafLoop n s level idx cur).1
  | 0, _, _, h, _, _, _ => h
  | n + 1, t, s, h, level, idx, cur => by
    rw [List.range'_succ, List.foldl_cons, insertLevel_eq, insertLeafLoop_succ, h.nodeAt]
    exact Mirrors.insertLoop n (h.insert _ _ _) _ _ _

theorem Mirrors.insertLeaf {t : SparseTree} {s : State} (h : Mirrors t s) (index : ℕ) (leaf : BaseElement) :
    Mirrors (t.insertLeaf index leaf) (Canister.insertLeaf s index leaf) := by
  have hloop := Mirrors.insertLoop treeDepth (h.insert 0 index leaf) 0 index leaf
  have hw : ({ s with nodes := s.nodes.insert (0, index) leaf } : State) = withNode s 0 index leaf := rfl
  simp only [SparseTree.insertLeaf, Canister.insertLeaf, List.range_eq_range', hw]
  generalize (List.range' 0 treeDepth).foldl SparseTree.insertLevel _ = out at hloop ⊢
  generalize insertLeafLoop treeDepth (withNode s 0 index leaf) 0 index leaf = out' at hloop ⊢
  exact ⟨hloop.zeroHashes, hloop.nodes⟩

/-- The loop of `proof` appends the siblings and bits of the path above the current node. -/
theorem proof_loop (t : SparseTree) : ∀ n level idx siblings bits,
    ∃ idx', (List.range' level n).foldl t.proofLevel (siblings, bits, idx) =
      (siblings ++ (path t.nodeAt n level idx).map Prod.fst, bits ++ (path t.nodeAt n level idx).map Prod.snd, idx')
  | 0, _, idx, siblings, bits => ⟨idx, by simp [path]⟩
  | n + 1, level, idx, siblings, bits => by
    obtain ⟨idx', h⟩ := proof_loop t n (level + 1) (idx / 2) (siblings ++ [t.nodeAt level (sibling idx)])
      (bits ++ [decide (idx % 2 = 1)])
    refine ⟨idx', ?_⟩
    rw [List.append_assoc, List.append_assoc] at h
    rw [List.range'_succ, List.foldl_cons]
    exact h

theorem proof_eq (t : SparseTree) (index : ℕ) : t.proof index =
    ((path t.nodeAt treeDepth 0 index).map Prod.fst, (path t.nodeAt treeDepth 0 index).map Prod.snd) := by
  obtain ⟨idx', h⟩ := proof_loop t treeDepth 0 index [] []
  unfold SparseTree.proof
  rw [List.range_eq_range', h]
  rfl

theorem Mirrors.proof {t : SparseTree} {s : State} (h : Mirrors t s) (index : ℕ) :
    merkleProofLoop s treeDepth 0 index = ((t.proof index).1.map feToString, (t.proof index).2) := by
  have hnode : t.nodeAt = Canister.nodeAt s := by
    funext level i
    exact h.nodeAt level i
  rw [merkleProofLoop_eq, proof_eq, hnode, List.map_map]
  rfl

/-! ## Every sequence of insertions -/

/-- The prover's tree after a sequence of insertions. -/
def mirrorTree (ops : List (ℕ × BaseElement)) : SparseTree :=
  ops.foldl (fun t op => t.insertLeaf op.1 op.2) SparseTree.new

/-- The canister's state after the same sequence. -/
def canisterTree (ops : List (ℕ × BaseElement)) : State :=
  ops.foldl (fun s op => Canister.insertLeaf s op.1 op.2) freshState

theorem mirrors_foldl : ∀ (ops : List (ℕ × BaseElement)) {t : SparseTree} {s : State}, Mirrors t s →
    Mirrors (ops.foldl (fun t op => t.insertLeaf op.1 op.2) t)
      (ops.foldl (fun s op => Canister.insertLeaf s op.1 op.2) s)
  | [], _, _, h => h
  | op :: ops, _, _, h => mirrors_foldl ops (h.insertLeaf op.1 op.2)

theorem canisterTree_root : ∀ ops : List (ℕ × BaseElement), (∀ op ∈ ops, op.1 < 2 ^ treeDepth) →
    (canisterTree ops).currentRoot = nodeAt (canisterTree ops) treeDepth 0 := by
  intro ops
  induction ops using List.reverseRecOn with
  | nil => intro _; exact (nodeAt_fresh treeDepth 0).symm
  | append_singleton ops op _ =>
    intro h
    rw [canisterTree, List.foldl_append, List.foldl_cons, List.foldl_nil, insertLeaf_currentRoot,
      Nat.div_eq_of_lt (h op (by simp))]

/-- Whatever leaves are inserted below `2^25`, in any order and with any repetitions, the prover's tree
and the canister's have the same root, the same node at every level and index, and for every leaf the
same proof. -/
theorem sparseTree_mirrors (ops : List (ℕ × BaseElement)) (h : ∀ op ∈ ops, op.1 < 2 ^ treeDepth) :
    (mirrorTree ops).root = (canisterTree ops).currentRoot ∧
    (∀ level ≤ treeDepth, ∀ index, (mirrorTree ops).nodeAt level index = nodeAt (canisterTree ops) level index) ∧
    ∀ index < 2 ^ treeDepth,
      ((mirrorTree ops).proof index).2 = (merkleProofLoop (canisterTree ops) treeDepth 0 index).2 ∧
      ((mirrorTree ops).proof index).1.map feToString = (merkleProofLoop (canisterTree ops) treeDepth 0 index).1 := by
  have hm : Mirrors (mirrorTree ops) (canisterTree ops) := mirrors_foldl ops mirrors_new
  refine ⟨?_, fun level _ index => hm.nodeAt level index, fun index _ => ?_⟩
  · rw [canisterTree_root ops h]
    exact hm.nodeAt treeDepth 0
  · simp only [hm.proof index, and_self]

theorem sparseTree_mirrors_update : (mirrorTree [(3, 7), (0, 1), (3, 8)]).root =
    (canisterTree [(3, 7), (0, 1), (3, 8)]).currentRoot := by
  have hops : ∀ op ∈ ([(3, 7), (0, 1), (3, 8)] : List (ℕ × BaseElement)), op.1 < 2 ^ treeDepth := by
    intro op hop
    simp only [List.mem_cons, List.not_mem_nil, or_false] at hop
    rcases hop with h | h | h <;> rw [h] <;> norm_num
  exact (sparseTree_mirrors [(3, 7), (0, 1), (3, 8)] hops).1

/-! ## Full trees -/

/-- Every node is that of the full tree over the leaves. -/
def Full (t : SparseTree) : Prop := ∀ l ≤ treeDepth, ∀ i, t.nodeAt l i = fullNode nodeHash (t.nodeAt 0) l i

theorem nodeAt_insertLeaf (t : SparseTree) (index : ℕ) (leaf : BaseElement) :
    (t.insertLeaf index leaf).nodeAt =
      (rewrite nodeHash treeDepth (setNode t.nodeAt 0 index leaf) 0 index leaf).1 := by
  -- a canister with the nodes of the tree does the same walk
  obtain ⟨s, hs⟩ : ∃ s : Canister.State, Mirrors t s :=
    ⟨{ Canister.freshState with zeroHashes := t.zeroHashes, nodes := t.nodes }, rfl, rfl⟩
  have hnodes : t.nodeAt = Canister.nodeAt s := funext fun level => funext fun i => hs.nodeAt level i
  obtain ⟨nodes, root, heq, hrewrite, -⟩ := Canister.insertLeaf_eq s index leaf
  have hinsert := hs.insertLeaf index leaf
  rw [heq] at hinsert
  rw [hnodes, ← hrewrite]
  exact funext fun level => funext fun i => hinsert.nodeAt level i

theorem full_new : Full SparseTree.new := by
  have hnode : ∀ l ≤ treeDepth, ∀ i, SparseTree.new.nodeAt l i = Canister.zeroHash l := fun l hl i => by
    rw [mirrors_new.nodeAt, Canister.nodeAt_fresh, Canister.initZeroHashes_getD hl]
  have hleaf : SparseTree.new.nodeAt 0 = fun _ => 0 := funext fun i => hnode 0 (Nat.zero_le _) i
  intro l hl i
  rw [hnode l hl, hleaf, fullNode_const, Canister.zeroHash_eq]

theorem Full.nodeAt_insert {t : SparseTree} (h : Full t) (index : ℕ) (leaf : BaseElement) {l : ℕ} (hl : l ≤ treeDepth)
    (i : ℕ) : (t.insertLeaf index leaf).nodeAt l i =
      fullNode nodeHash (Function.update (t.nodeAt 0) index leaf) l i := by
  rw [nodeAt_insertLeaf]
  exact rewrite_insert h index leaf hl i

theorem Full.leaf_insert {t : SparseTree} (h : Full t) (index : ℕ) (leaf : BaseElement) :
    (t.insertLeaf index leaf).nodeAt 0 = Function.update (t.nodeAt 0) index leaf :=
  funext fun i => h.nodeAt_insert index leaf (Nat.zero_le _) i

theorem Full.insert {t : SparseTree} (h : Full t) (index : ℕ) (leaf : BaseElement) : Full (t.insertLeaf index leaf) := by
  intro l hl i
  rw [h.nodeAt_insert index leaf hl, h.leaf_insert]

/-- The path of a full tree is that over its leaves, and its root is theirs. -/
theorem Full.path {t : SparseTree} (h : Full t) (index : ℕ) :
    path t.nodeAt treeDepth 0 index = HashTree.path (fullNode nodeHash (t.nodeAt 0)) treeDepth 0 index :=
  path_congr treeDepth 0 index fun k hk => h (0 + k) (by omega) _

theorem Full.root {t : SparseTree} (h : Full t) : t.root = fullNode nodeHash (t.nodeAt 0) treeDepth 0 :=
  h treeDepth le_rfl 0

end Yaqeen.Prover
