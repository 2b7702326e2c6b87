/-
The support of the test harness: a tree and a trace builder of its own that panic where the production
code goes on, a root recomputed apart from any tree, and all constraints evaluated on the cyclic
pairs of rows. The tree accepts its own proofs and no others, and on the witnesses it does not panic on
the builder is the production one, with tables that pass every check.
-/
import Yaqeen.Prover.SparseTree
import Yaqeen.Prover.Refusal
import Yaqeen.Canister.Submissions

namespace Yaqeen.Harness

open Air FinMap HashTree Prover

/-! ## The tree -/

/-- The tree of the harness has the fields and loops of the prover's; `none` is a panic. -/
abbrev SparseTree : Type := Prover.SparseTree

def insertLeaf (t : SparseTree) (index : ℕ) (leaf : BaseElement) : Option SparseTree := do
  guard (index < 2 ^ treeDepth)
  return t.insertLeaf index leaf

def proof (t : SparseTree) (index : ℕ) : Option (List BaseElement × List Bool) := do
  guard (index < 2 ^ treeDepth)
  return t.proof index

/-- One level of the loop of `recompute_root`. -/
def recomputeLevel (siblings : List BaseElement) (bits : List Bool) (cur : BaseElement) (level : ℕ) :
    Option BaseElement := do
  let sibling ← siblings[level]?
  let bit ← bits[level]?
  let (l, r) := if bit then (sibling, cur) else (cur, sibling)
  return Air.hash [BaseElement.new domainNode, l, r]

def recomputeRoot (leaf : BaseElement) (siblings : List BaseElement) (bits : List Bool) : Option BaseElement := do
  guard (siblings.length = treeDepth)
  guard (bits.length = treeDepth)
  (List.range treeDepth).foldlM (recomputeLevel siblings bits) leaf

/-- A tree built by insertions. -/
def treeOf (ops : List (ℕ × BaseElement)) : Option SparseTree :=
  ops.foldlM (fun t op => insertLeaf t op.1 op.2) SparseTree.new

/-! ## Its leaves -/

/-- The leaf inserted last at an index, zero if there is none. -/
def lastLeaf (ops : List (ℕ × BaseElement)) (index : ℕ) : BaseElement :=
  (ops.filter fun op => op.1 = index).getLast?.elim 0 Prod.snd

theorem lastLeaf_concat (ops : List (ℕ × BaseElement)) (op : ℕ × BaseElement) :
    lastLeaf (ops ++ [op]) = Function.update (lastLeaf ops) op.1 op.2 := by
  funext i
  unfold lastLeaf
  rw [List.filter_append, List.filter_singleton]
  by_cases hi : op.1 = i
  · subst hi
    rw [decide_eq_true rfl, cond_true, List.getLast?_concat, Function.update_self]
    rfl
  · rw [decide_eq_false hi, cond_false, List.append_nil, Function.update_of_ne (Ne.symm hi)]

/-- The leaves of a tree built by insertions are those inserted last. -/
theorem treeOf_spec (ops : List (ℕ × BaseElement)) :
    ∀ {t : SparseTree}, treeOf ops = some t → Full t ∧ t.nodeAt 0 = lastLeaf ops := by
  induction ops using List.reverseRecOn with
  | nil =>
    rintro t ⟨⟩
    refine ⟨full_new, funext fun i => ?_⟩
    rw [mirrors_new.nodeAt, Canister.nodeAt_fresh, Canister.initZeroHashes_getD (Nat.zero_le _)]
    rfl
  | append_singleton ops op ih =>
    intro t ht
    unfold treeOf at ht ih
    rw [List.foldlM_append] at ht
    obtain ⟨t', ht', ht⟩ := Option.bind_eq_some_iff.1 ht
    obtain ⟨hfull, hleaf⟩ := ih ht'
    rw [List.foldlM_cons] at ht
    unfold insertLeaf at ht
    obtain ⟨_, ht, h⟩ := Option.bind_eq_some_iff.1 ht
    obtain ⟨-, -, ht⟩ := Option.bind_eq_some_iff.1 ht
    cases ht
    cases h
    refine ⟨hfull.insert op.1 op.2, ?_⟩
    rw [hfull.leaf_insert, hleaf, lastLeaf_concat]

/-! ## Recomputed roots -/

theorem recomputeLevel_eq {siblings : List BaseElement} {bits : List Bool} {level : ℕ} {sib : BaseElement} {bit : Bool}
    (hs : siblings[level]? = some sib) (hb : bits[level]? = some bit) (cur : BaseElement) :
    recomputeLevel siblings bits cur level = some (join nodeHash bit cur sib) := by
  unfold recomputeLevel join nodeHash
  rw [hs, hb]
  simp only [Option.bind_eq_bind, Option.bind_some]
  cases bit with
  | true => simp only [if_true]; rfl
  | false => simp only [Bool.false_eq_true, if_false]; rfl

theorem recompute_loop {siblings : List BaseElement} {bits : List Bool} (hs : siblings.length = 25)
    (hb : bits.length = 25) (leaf : BaseElement) : ∀ n ≤ 25,
    (List.range n).foldlM (recomputeLevel siblings bits) leaf =
      some (foldPath nodeHash leaf ((siblings.zip bits).take n))
  | 0, _ => rfl
  | n + 1, hn => by
    obtain ⟨sib, hsib⟩ : ∃ sib, siblings[n]? = some sib := ⟨_, List.getElem?_eq_getElem (by omega)⟩
    obtain ⟨bit, hbit⟩ : ∃ bit, bits[n]? = some bit := ⟨_, List.getElem?_eq_getElem (by omega)⟩
    have hzip : (siblings.zip bits)[n]? = some (sib, bit) := List.getElem?_zip_eq_some.2 ⟨hsib, hbit⟩
    rw [List.range_succ, List.foldlM_append, recompute_loop hs hb leaf n (by omega), List.take_add_one, hzip,
      Option.toList_some, foldPath_append, Option.bind_eq_bind, Option.bind_some, List.foldlM_cons,
      recomputeLevel_eq hsib hbit]
    rfl

theorem recomputeRoot_eq {siblings : List BaseElement} {bits : List Bool} (hs : siblings.length = 25)
    (hb : bits.length = 25) (leaf : BaseElement) :
    recomputeRoot leaf siblings bits = some (foldPath nodeHash leaf (siblings.zip bits)) := by
  have hloop := recompute_loop hs hb leaf 25 le_rfl
  rw [List.take_of_length_le (by rw [List.length_zip, hs, hb]; exact le_rfl)] at hloop
  unfold recomputeRoot
  rw [guard, if_pos hs, guard, if_pos hb]
  exact hloop

theorem recomputeRoot_lengths {leaf x : BaseElement} {siblings : List BaseElement} {bits : List Bool}
    (h : recomputeRoot leaf siblings bits = some x) : siblings.length = 25 ∧ bits.length = 25 := by
  unfold recomputeRoot guard at h
  by_cases hs : siblings.length = treeDepth
  · rw [if_pos hs] at h
    by_cases hb : bits.length = treeDepth
    · exact ⟨hs, hb⟩
    · rw [if_neg hb] at h
      cases h
  · rw [if_neg hs] at h
    cases h

/-! ## Accepted proofs -/

/-- The inputs hashed along a path. -/
def pathInputs (leaf : BaseElement) (path : List (BaseElement × Bool)) : Set (List BaseElement) :=
  {x | ∃ p ∈ foldPairs nodeHash leaf path, x = [BaseElement.new domainNode, p.1, p.2]}

theorem proof_eq_some {t : SparseTree} {index : ℕ} {siblings : List BaseElement} {bits : List Bool} :
    proof t index = some (siblings, bits) ↔ index < 2 ^ treeDepth ∧
      siblings = (path t.nodeAt treeDepth 0 index).map Prod.fst ∧
      bits = (path t.nodeAt treeDepth 0 index).map Prod.snd := by
  unfold proof guard
  rw [Prover.proof_eq]
  by_cases hi : index < 2 ^ treeDepth
  · rw [if_pos hi]
    constructor
    · rintro ⟨⟩
      exact ⟨hi, rfl, rfl⟩
    · rintro ⟨-, rfl, rfl⟩
      rfl
  · rw [if_neg hi]
    constructor
    · intro h
      cases h
    · rintro ⟨h, -⟩
      exact absurd h hi

/-- The path of an index hashes pairs of the tree only. -/
theorem pathInputs_subset (leaf : ℕ → BaseElement) {index : ℕ} (hi : index < 2 ^ treeDepth) :
    pathInputs (leaf index) (HashTree.path (fullNode nodeHash leaf) treeDepth 0 index) ⊆ treeInputs leaf := by
  rintro _ ⟨p, hp, rfl⟩
  have hstart : leaf index = fullNode nodeHash leaf 0 index := rfl
  rw [hstart] at hp
  obtain ⟨l, i, hl, hi, rfl⟩ := foldPairs_path leaf treeDepth 0 index le_rfl hi p hp
  exact ⟨l, hl, i, hi, rfl⟩

/-- For every tree built by insertions, `recompute_root` leads from the leaf inserted last at an index and
the proof of that index to the root, and from no other leaf and proof, where the hash does not collide on
the inputs of the tree and of the proof. -/
theorem recompute_root_exact {ops : List (ℕ × BaseElement)} {t : SparseTree} (ht : treeOf ops = some t) :
    (∀ index siblings bits, proof t index = some (siblings, bits) →
      recomputeRoot (lastLeaf ops index) siblings bits = some t.root) ∧
    ∀ leaf siblings bits, (treeInputs (lastLeaf ops) ∪ pathInputs leaf (siblings.zip bits)).InjOn Air.hash →
      recomputeRoot leaf siblings bits = some t.root →
      ∃ index, proof t index = some (siblings, bits) ∧ leaf = lastLeaf ops index := by
  obtain ⟨hfull, hleaf⟩ := treeOf_spec ops ht
  rw [← hleaf, hfull.root]
  constructor
  · intro index siblings bits hproof
    obtain ⟨hi, rfl, rfl⟩ := proof_eq_some.1 hproof
    have hfold : foldPath nodeHash (t.nodeAt 0 index) _ = _ := foldPath_fullNode (t.nodeAt 0) treeDepth 0 index
    rw [recomputeRoot_eq (by simp) (by simp), Canister.zip_path, hfull.path, hfold, Nat.zero_add, Nat.div_eq_of_lt hi]
  · intro leaf siblings bits hinj hroot
    obtain ⟨hs, hb⟩ := recomputeRoot_lengths hroot
    rw [recomputeRoot_eq hs hb] at hroot
    obtain ⟨index, hi, hl, hpath⟩ := (foldPath_eq_root_iff (nodeHash_injOn hinj)
      (treePairs_subset Set.subset_union_left) (fun p hp => .inr ⟨p, hp, rfl⟩)
      (by rw [List.length_zip, hs, hb]; rfl)).1 (Option.some.inj hroot)
    refine ⟨index, proof_eq_some.2 ⟨hi, ?_, ?_⟩, hl⟩
    · rw [hfull.path, ← hpath, List.map_fst_zip (by omega)]
    · rw [hfull.path, ← hpath, List.map_snd_zip (by omega)]

/-! ## A tree of two leaves, one of them inserted twice -/

theorem exists_treeOf (ops : List (ℕ × BaseElement)) (h : ∀ op ∈ ops, op.1 < 2 ^ treeDepth) : ∃ t, treeOf ops = some t := by
  unfold treeOf
  generalize SparseTree.new = t₀
  induction ops generalizing t₀ with
  | nil => exact ⟨t₀, rfl⟩
  | cons op ops ih =>
    obtain ⟨hop, hops⟩ := List.forall_mem_cons.1 h
    have hinsert : insertLeaf t₀ op.1 op.2 = some (t₀.insertLeaf op.1 op.2) := by
      unfold insertLeaf
      rw [guard, if_pos hop]
      rfl
    rw [List.foldlM_cons, hinsert]
    exact ih hops _

/-- The residues of the nodes above the leaves 7 and 9. -/
def pairNat : ℕ → ℕ
  | 0 => hashList [4, 7, 9]
  | l + 1 => hashList [4, pairNat l, Canister.zeroNat (l + 1)]

def pairLeaf (i : ℕ) : BaseElement := if i = 0 then BaseElement.new 7 else if i = 1 then BaseElement.new 9 else 0

theorem pairLeaf_node : ∀ l i, fullNode nodeHash pairLeaf (l + 1) i =
    if i = 0 then BaseElement.new (pairNat l) else BaseElement.new (Canister.zeroNat (l + 1))
  | 0, i => by
    have hzero : ∀ j, 2 ≤ j → pairLeaf j = BaseElement.new 0 := fun j hj => by
      rw [pairLeaf, if_neg (by omega), if_neg (by omega)]
      exact Nat.cast_zero.symm
    rw [fullNode, fullNode, fullNode]
    by_cases hi : i = 0
    · rw [if_pos hi, hi]
      exact nodeHash_eval 7 9
    · rw [if_neg hi, hzero _ (by omega), hzero _ (by omega)]
      exact nodeHash_eval 0 0
  | l + 1, i => by
    rw [fullNode, pairLeaf_node l, pairLeaf_node l, if_neg (by omega : 2 * i + 1 ≠ 0)]
    by_cases hi : i = 0
    · rw [if_pos hi, if_pos (by omega)]
      exact nodeHash_eval _ _
    · rw [if_neg hi, if_neg (by omega)]
      exact nodeHash_eval _ _

/-- All inputs hashed in the tree. -/
def pairInputs : List (List ℕ) :=
  [4, 7, 9] :: ((List.range 24).map (fun l => [4, pairNat l, Canister.zeroNat (l + 1)]) ++
    (List.range 25).map fun l => [4, Canister.zeroNat l, Canister.zeroNat l])

theorem pair_injOn_values : (pairInputs.map fun n => hashList n % modulus).Nodup := by decide +kernel

theorem treeInputs_pair : treeInputs pairLeaf ⊆ {x | ∃ n ∈ pairInputs, x = n.map BaseElement.new} := by
  have hempty : ∀ l < 25, [4, Canister.zeroNat l, Canister.zeroNat l] ∈ pairInputs := fun l hl =>
    List.mem_cons_of_mem _ (List.mem_append_right _ (List.mem_map.2 ⟨l, List.mem_range.2 hl, rfl⟩))
  rintro x ⟨l, hl, i, -, rfl⟩
  have hl : l < 25 := hl
  cases l with
  | zero =>
    rw [fullNode, fullNode]
    by_cases hi : i = 0
    · subst hi
      exact ⟨_, List.mem_cons_self, rfl⟩
    · have hzero : (0 : BaseElement) = BaseElement.new 0 := Nat.cast_zero.symm
      rw [pairLeaf, pairLeaf, if_neg (by omega), if_neg (by omega), if_neg (by omega), if_neg (by omega), hzero]
      exact ⟨_, hempty 0 hl, rfl⟩
  | succ l =>
    rw [pairLeaf_node, pairLeaf_node, if_neg (by omega : 2 * i + 1 ≠ 0)]
    by_cases hi : 2 * i = 0
    · rw [if_pos hi]
      exact ⟨_, List.mem_cons_of_mem _ (List.mem_append_left _ (List.mem_map.2 ⟨l, List.mem_range.2 (by omega), rfl⟩)),
        (Canister.node_inputs _ _).symm⟩
    · rw [if_neg hi]
      exact ⟨_, hempty _ hl, (Canister.node_inputs _ _).symm⟩

/-- Leaf 0 is inserted twice. -/
def pairOps : List (ℕ × BaseElement) := [(0, BaseElement.new 5), (1, BaseElement.new 9), (0, BaseElement.new 7)]

theorem lastLeaf_pair : lastLeaf pairOps = pairLeaf := by
  have hops : pairOps = [] ++ [(0, BaseElement.new 5)] ++ [(1, BaseElement.new 9)] ++ [(0, BaseElement.new 7)] := rfl
  funext i
  rw [hops, lastLeaf_concat, lastLeaf_concat, lastLeaf_concat, pairLeaf]
  by_cases h0 : i = 0
  · rw [if_pos h0, h0, Function.update_self]
  · rw [if_neg h0, Function.update_of_ne h0]
    by_cases h1 : i = 1
    · rw [if_pos h1, h1, Function.update_self]
    · rw [if_neg h1, Function.update_of_ne h1, Function.update_of_ne h0]
      rfl

/-- The proof of leaf 0 leads from the leaf inserted last to the root, and is the proof of some index. -/
theorem recompute_root_exact_pair : ∃ t siblings bits, treeOf pairOps = some t ∧ proof t 0 = some (siblings, bits) ∧
    recomputeRoot (BaseElement.new 7) siblings bits = some t.root ∧
    ∃ index, proof t index = some (siblings, bits) ∧ BaseElement.new 7 = lastLeaf pairOps index := by
  obtain ⟨t, ht⟩ := exists_treeOf pairOps (by simp [pairOps])
  obtain ⟨hfull, hleaf⟩ := treeOf_spec _ ht
  obtain ⟨siblings, bits, hproof⟩ : ∃ siblings bits, proof t 0 = some (siblings, bits) :=
    ⟨_, _, proof_eq_some.2 ⟨by norm_num, rfl, rfl⟩⟩
  obtain ⟨haccepts, hexact⟩ := recompute_root_exact ht
  have hlast : lastLeaf pairOps 0 = BaseElement.new 7 := by rw [lastLeaf_pair]; rfl
  have hroot := haccepts 0 siblings bits hproof
  rw [hlast] at hroot
  refine ⟨t, siblings, bits, ht, hproof, hroot, hexact _ siblings bits ?_ hroot⟩
  obtain ⟨-, rfl, rfl⟩ := proof_eq_some.1 hproof
  have hpath := pathInputs_subset (lastLeaf pairOps) (Nat.two_pow_pos treeDepth)
  rw [hlast] at hpath
  rw [Canister.zip_path, hfull.path, hleaf]
  refine (hash_injOn pair_injOn_values).mono ((Set.union_subset le_rfl hpath).trans ?_)
  rw [lastLeaf_pair]
  exact treeInputs_pair

end Yaqeen.Harness
