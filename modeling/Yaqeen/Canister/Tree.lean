/-
The incremental sparse tree against the full tree of depth 25: `insert_leaf` is the walk that
rewrites one path, so in every reachable state every node, stored or implicit, is that of the full
tree over the current records, with zero where no property has an index.
-/
import Yaqeen.Canister.Changes
import Yaqeen.Lib.HashTree

namespace Yaqeen.Canister

open Air FinMap Runs HashTree

/-! ## The walk of insert_leaf -/

theorem siblingIndex_eq (idx : ℕ) : siblingIndex idx = sibling idx := rfl

def withNode (s : State) (level idx : ℕ) (x : BaseElement) : State :=
  { s with nodes := s.nodes.insert (level, idx) x }

theorem nodeAt_withNode (s : State) (level idx : ℕ) (x : BaseElement) :
    nodeAt (withNode s level idx x) = setNode (nodeAt s) level idx x := by
  funext l i
  unfold nodeAt setNode withNode
  rw [lookup_insert]
  by_cases h : l = level ∧ i = idx
  · rw [if_pos (Prod.ext h.1 h.2), if_pos h, Option.getD_some]
  · rw [if_neg fun he => h ⟨congrArg Prod.fst he, congrArg Prod.snd he⟩, if_neg h]

/-- A level of the loop stores the parent of the current node and its sibling. -/
theorem insertLeafLoop_succ (n : ℕ) (s : State) (level idx : ℕ) (cur : BaseElement) :
    insertLeafLoop (n + 1) s level idx cur =
      let parent := join nodeHash (decide (idx % 2 = 1)) cur (nodeAt s level (sibling idx))
      insertLeafLoop n (withNode s (level + 1) (idx / 2) parent) (level + 1) (idx / 2) parent := by
  conv_lhs => unfold insertLeafLoop
  unfold join nodeHash withNode
  simp only [siblingIndex_eq]
  rcases Nat.mod_two_eq_zero_or_one idx with h | h
  · simp only [h, if_true, zero_ne_one, decide_false, Bool.false_eq_true, if_false]
  · simp only [h, one_ne_zero, if_false, decide_true, if_true]

/-- The loop changes only the stored nodes, and its nodes and digest are those of the rewriting walk. -/
theorem insertLeafLoop_eq : ∀ n s level idx cur, ∃ nodes,
    insertLeafLoop n s level idx cur =
        ({ s with nodes := nodes }, (rewrite nodeHash n (nodeAt s) level idx cur).2) ∧
      nodeAt { s with nodes := nodes } = (rewrite nodeHash n (nodeAt s) level idx cur).1
  | 0, s, _, _, _ => ⟨s.nodes, rfl, rfl⟩
  | n + 1, s, level, idx, cur => by
    have hstep := insertLeafLoop_succ n s level idx cur
    generalize hp : join nodeHash (decide (idx % 2 = 1)) cur (nodeAt s level (sibling idx)) = parent at hstep
    obtain ⟨nodes, h, hn⟩ :=
      insertLeafLoop_eq n (withNode s (level + 1) (idx / 2) parent) (level + 1) (idx / 2) parent
    rw [nodeAt_withNode] at h hn
    refine ⟨nodes, ?_, ?_⟩
    · rw [hstep, rewrite, hp]
      exact h
    · rw [rewrite, hp]
      exact hn

/-- Inserting a leaf changes the stored nodes, which become those of the rewriting walk, and the root,
which becomes the ancestor of the leaf at level 25. -/
theorem insertLeaf_eq (s : State) (index : ℕ) (leaf : BaseElement) : ∃ nodes root,
    insertLeaf s index leaf = { s with nodes := nodes, currentRoot := root } ∧
    nodeAt { s with nodes := nodes } =
      (rewrite nodeHash treeDepth (setNode (nodeAt s) 0 index leaf) 0 index leaf).1 ∧
    root = nodeAt { s with nodes := nodes } treeDepth (index / 2 ^ treeDepth) := by
  obtain ⟨nodes, h, hn⟩ := insertLeafLoop_eq treeDepth (withNode s 0 index leaf) 0 index leaf
  rw [nodeAt_withNode] at h hn
  have htop : (rewrite nodeHash treeDepth (setNode (nodeAt s) 0 index leaf) 0 index leaf).1 (0 + treeDepth) _ = _ :=
    rewrite_top (by norm_num) _ 0 index leaf
  rw [Nat.zero_add] at htop
  generalize rewrite nodeHash treeDepth (setNode (nodeAt s) 0 index leaf) 0 index leaf = out at h hn htop ⊢
  have hnode : nodeAt { s with nodes := nodes } = out.1 := hn
  refine ⟨nodes, out.2, ?_, hnode, by rw [hnode, htop]⟩
  have hw : ({ s with nodes := s.nodes.insert (0, index) leaf } : State) = withNode s 0 index leaf := rfl
  simp only [insertLeaf, hw, h]
  simp only [withNode]

/-- The root is the ancestor of the leaf inserted last. -/
theorem insertLeaf_currentRoot (s : State) (index : ℕ) (leaf : BaseElement) :
    (insertLeaf s index leaf).currentRoot = nodeAt (insertLeaf s index leaf) treeDepth (index / 2 ^ treeDepth) := by
  obtain ⟨nodes, root, heq, -, hroot⟩ := insertLeaf_eq s index leaf
  rw [heq]
  exact hroot

/-! ## The invariant -/

/-- The leaves of a state: the hash of the record with an index, zero where no property has it. -/
structure LeavesOf (s : State) (leaf : ℕ → BaseElement) : Prop where
  assigned : ∀ p i r, s.leafIndexByProperty.lookup p = some i → s.records.lookup p = some r →
    leafHash r = .ok (leaf i)
  free : ∀ i, (∀ p, s.leafIndexByProperty.lookup p ≠ some i) → leaf i = 0

structure TreeInv (s : State) : Prop where
  keyed : Keyed s
  zeros : s.zeroHashes = initZeroHashes
  registered : ∀ p, (∃ r, s.records.lookup p = some r) ↔ ∃ i, s.leafIndexByProperty.lookup p = some i
  next : s.nextLeafIndex = s.leafIndexByProperty.keys.card % 2 ^ 64
  index_lt : ∀ p i, s.leafIndexByProperty.lookup p = some i → i < s.leafIndexByProperty.keys.card
  index_inj : ∀ p q i, s.leafIndexByProperty.lookup p = some i → s.leafIndexByProperty.lookup q = some i → p = q
  index_surj : ∀ i < s.leafIndexByProperty.keys.card, ∃ p, s.leafIndexByProperty.lookup p = some i
  nodes : ∃ leaf, LeavesOf s leaf ∧ ∀ l ≤ treeDepth, ∀ i, nodeAt s l i = fullNode nodeHash leaf l i
  -- an index outside the tree would leave another node than (25, 0) as the root
  root : (∀ p i, s.leafIndexByProperty.lookup p = some i → i < 2 ^ treeDepth) → s.currentRoot = nodeAt s treeDepth 0

theorem zeroHash_eq : ∀ l, zeroHash l = emptyRoot nodeHash 0 l
  | 0 => rfl
  | l + 1 => by rw [zeroHash, emptyRoot, zeroHash_eq l]

theorem nodeAt_fresh (l i : ℕ) : nodeAt freshState l i = initZeroHashes.getD l 0 := by
  unfold nodeAt freshState
  rw [Finmap.lookup_empty, Option.getD_none]

theorem treeInv_fresh : TreeInv freshState where
  keyed k r h := by cases h
  zeros := rfl
  registered p := by
    constructor
    · rintro ⟨r, h⟩; cases h
    · rintro ⟨i, h⟩; cases h
  next := by
    show 0 = (∅ : HashMap UInt64 ℕ).keys.card % 2 ^ 64
    rw [Finmap.keys_empty, Finset.card_empty, Nat.zero_mod]
  index_lt p i h := by cases h
  index_inj p q i h := by cases h
  index_surj i h := by cases h
  nodes := by
    refine ⟨fun _ => 0, ⟨fun p i r h => (by cases h), fun _ _ => rfl⟩, fun l hl i => ?_⟩
    rw [fullNode_const, ← zeroHash_eq, ← initZeroHashes_getD hl, nodeAt_fresh]
  root _ := by rw [nodeAt_fresh]; rfl

/-- The invariant reads the registry's fields only. -/
theorem TreeInv.frame {s s' : State} (h : TreeInv s) (hrec : s'.records = s.records)
    (hidx : s'.leafIndexByProperty = s.leafIndexByProperty) (hz : s'.zeroHashes = s.zeroHashes)
    (hn : s'.nodes = s.nodes) (hnext : s'.nextLeafIndex = s.nextLeafIndex)
    (hroot : s'.currentRoot = s.currentRoot ∨ s'.currentRoot = nodeAt s treeDepth 0) : TreeInv s' := by
  have hnode : nodeAt s' = nodeAt s := by
    funext l i
    unfold nodeAt
    rw [hn, hz]
  obtain ⟨leaf, hl, hfull⟩ := h.nodes
  refine ⟨?_, ?_, ?_, ?_, ?_, ?_, ?_, ⟨leaf, ⟨?_, ?_⟩, ?_⟩, fun hlt => ?_⟩
  · unfold Keyed; rw [hrec]; exact h.keyed
  · rw [hz]; exact h.zeros
  · rw [hrec, hidx]; exact h.registered
  · rw [hnext, hidx]; exact h.next
  · rw [hidx]; exact h.index_lt
  · rw [hidx]; exact h.index_inj
  · rw [hidx]; exact h.index_surj
  · rw [hrec, hidx]; exact hl.assigned
  · rw [hidx]; exact hl.free
  · rw [hnode]; exact hfull
  · rw [hidx] at hlt
    rw [hnode]
    exact hroot.elim (fun hr => hr.trans (h.root hlt)) id

/-! ## Accepted records -/

theorem assignIndex_cases (s : State) (p : UInt64) :
    (∃ i, s.leafIndexByProperty.lookup p = some i ∧ assignIndex s p = (i, s)) ∨
      (s.leafIndexByProperty.lookup p = none ∧ assignIndex s p = (s.nextLeafIndex, { s with
        nextLeafIndex := (s.nextLeafIndex + 1) % 2 ^ 64
        leafIndexByProperty := s.leafIndexByProperty.insert p s.nextLeafIndex })) := by
  unfold assignIndex
  cases h : s.leafIndexByProperty.lookup p with
  | none => exact .inr ⟨rfl, rfl⟩
  | some i => exact .inl ⟨i, rfl, rfl⟩

theorem assignIndex_of_some {s : State} {p : UInt64} {i : ℕ} (h : s.leafIndexByProperty.lookup p = some i) :
    assignIndex s p = (i, s) := by
  unfold assignIndex
  simp only [h]

/-- An accepted record is stored under its id, gets its index, and rewrites the path of its leaf. -/
theorem submit_eq (s : State) (record : Record) (leaf : BaseElement) : ∃ nodes root,
    submit s record leaf = { s with
      records := s.records.insert record.propertyId record
      leafIndexByProperty := (assignIndex s record.propertyId).2.leafIndexByProperty
      nextLeafIndex := (assignIndex s record.propertyId).2.nextLeafIndex
      nodes := nodes
      currentRoot := root } ∧
    nodeAt { s with nodes := nodes } =
      (rewrite nodeHash treeDepth (setNode (nodeAt s) 0 (assignIndex s record.propertyId).1 leaf) 0
        (assignIndex s record.propertyId).1 leaf).1 := by
  unfold submit
  obtain ⟨i, hi, h⟩ | ⟨hn, h⟩ := assignIndex_cases s record.propertyId
  · rw [h]
    obtain ⟨nodes, root, heq, hnodes, -⟩ :=
      insertLeaf_eq { s with records := s.records.insert record.propertyId record } i leaf
    exact ⟨nodes, root, heq, hnodes⟩
  · rw [h]
    obtain ⟨nodes, root, heq, hnodes, -⟩ := insertLeaf_eq { s with
      nextLeafIndex := (s.nextLeafIndex + 1) % 2 ^ 64
      leafIndexByProperty := s.leafIndexByProperty.insert record.propertyId s.nextLeafIndex
      records := s.records.insert record.propertyId record } s.nextLeafIndex leaf
    exact ⟨nodes, root, heq, hnodes⟩

theorem submit_currentRoot (s : State) (record : Record) (leaf : BaseElement) : (submit s record leaf).currentRoot =
    nodeAt (submit s record leaf) treeDepth ((assignIndex s record.propertyId).1 / 2 ^ treeDepth) :=
  insertLeaf_currentRoot _ _ _

section

variable (s : State) (record : Record) (leaf : BaseElement)

@[simp] theorem submit_records : (submit s record leaf).records = s.records.insert record.propertyId record := by
  obtain ⟨_, _, heq, -⟩ := submit_eq s record leaf
  rw [heq]

@[simp] theorem submit_leafIndexByProperty : (submit s record leaf).leafIndexByProperty =
    (assignIndex s record.propertyId).2.leafIndexByProperty := by
  obtain ⟨_, _, heq, -⟩ := submit_eq s record leaf
  rw [heq]

@[simp] theorem submit_nextLeafIndex : (submit s record leaf).nextLeafIndex =
    (assignIndex s record.propertyId).2.nextLeafIndex := by
  obtain ⟨_, _, heq, -⟩ := submit_eq s record leaf
  rw [heq]

@[simp] theorem submit_zeroHashes : (submit s record leaf).zeroHashes = s.zeroHashes := by
  obtain ⟨_, _, heq, -⟩ := submit_eq s record leaf
  rw [heq]

@[simp] theorem submit_admins : (submit s record leaf).admins = s.admins := by
  obtain ⟨_, _, heq, -⟩ := submit_eq s record leaf
  rw [heq]

@[simp] theorem submit_challenges : (submit s record leaf).challenges = s.challenges := by
  obtain ⟨_, _, heq, -⟩ := submit_eq s record leaf
  rw [heq]

@[simp] theorem submit_nextChallengeId : (submit s record leaf).nextChallengeId = s.nextChallengeId := by
  obtain ⟨_, _, heq, -⟩ := submit_eq s record leaf
  rw [heq]

@[simp] theorem submit_nextNonce : (submit s record leaf).nextNonce = s.nextNonce := by
  obtain ⟨_, _, heq, -⟩ := submit_eq s record leaf
  rw [heq]

@[simp] theorem submit_nullifiers : (submit s record leaf).nullifiers = s.nullifiers := by
  obtain ⟨_, _, heq, -⟩ := submit_eq s record leaf
  rw [heq]

@[simp] theorem submit_lastChallengeCallAt : (submit s record leaf).lastChallengeCallAt = s.lastChallengeCallAt := by
  obtain ⟨_, _, heq, -⟩ := submit_eq s record leaf
  rw [heq]

@[simp] theorem submit_lastVerifyCallAt : (submit s record leaf).lastVerifyCallAt = s.lastVerifyCallAt := by
  obtain ⟨_, _, heq, -⟩ := submit_eq s record leaf
  rw [heq]

/-- An accepted record fixes the index of its property and leaves the others. -/
theorem submit_lookup (p : UInt64) : (submit s record leaf).leafIndexByProperty.lookup p =
    if p = record.propertyId then some (assignIndex s record.propertyId).1 else s.leafIndexByProperty.lookup p := by
  rw [submit_leafIndexByProperty]
  obtain ⟨j, hj, hassign⟩ | ⟨-, hassign⟩ := assignIndex_cases s record.propertyId
  · rw [hassign]
    split
    · rename_i hp
      rw [hp, hj]
    · rfl
  · rw [hassign]
    exact lookup_insert _ _ _ _

end

/-- After an accepted record the nodes are those of the tree with its leaf. -/
theorem submit_nodes {s : State} {leaf : ℕ → BaseElement}
    (h : ∀ l ≤ treeDepth, ∀ i, nodeAt s l i = fullNode nodeHash leaf l i) {record : Record} {j : ℕ}
    (hj : (assignIndex s record.propertyId).1 = j) (x : BaseElement) :
    ∀ l ≤ treeDepth, ∀ i, nodeAt (submit s record x) l i = fullNode nodeHash (Function.update leaf j x) l i := by
  obtain ⟨nodes, root, heq, hnodes⟩ := submit_eq s record x
  have hnode : nodeAt (submit s record x) = nodeAt { s with nodes := nodes } := by rw [heq]; rfl
  rw [hj] at hnodes
  rw [hnode, hnodes]
  exact fun l hl i => rewrite_insert h j x hl i

theorem card_lt_of_free {m : HashMap UInt64 ℕ} {p : UInt64} (h : m.lookup p = none) : m.keys.card < 2 ^ 64 := by
  have hsub : (m.insert p 0).keys.image UInt64.toNat ⊆ Finset.range (2 ^ 64) := by
    intro n hn
    obtain ⟨q, -, rfl⟩ := Finset.mem_image.1 hn
    exact Finset.mem_range.2 q.toNat_lt
  have hcard := Finset.card_le_card hsub
  rw [Finset.card_image_of_injective _ fun a b => UInt64.toNat_inj.1, Finset.card_range,
    card_keys_insert_of_none 0 h] at hcard
  omega

theorem TreeInv.numbered {s : State} (h : TreeInv s) : Numbered s.leafIndexByProperty :=
  ⟨h.index_lt, h.index_inj, h.index_surj⟩

/-- Indices are the numbers below their count also after an accepted record. -/
theorem TreeInv.submit_numbered {s : State} (h : TreeInv s) (record : Record) (x : BaseElement) :
    Numbered (Canister.submit s record x).leafIndexByProperty ∧ (Canister.submit s record x).nextLeafIndex =
      (Canister.submit s record x).leafIndexByProperty.keys.card % 2 ^ 64 := by
  rw [submit_leafIndexByProperty, submit_nextLeafIndex]
  obtain ⟨j, -, hassign⟩ | ⟨hnone, hassign⟩ := assignIndex_cases s record.propertyId
  · rw [hassign]
    exact ⟨h.numbered, h.next⟩
  · -- the next index has not wrapped around: it counts the properties so far
    have hnext : s.nextLeafIndex = s.leafIndexByProperty.keys.card := by
      rw [h.next, Nat.mod_eq_of_lt (card_lt_of_free hnone)]
    rw [hassign]
    constructor
    · show Numbered (s.leafIndexByProperty.insert record.propertyId s.nextLeafIndex)
      rw [hnext]
      exact h.numbered.insert hnone
    · show (s.nextLeafIndex + 1) % 2 ^ 64 =
        (s.leafIndexByProperty.insert record.propertyId s.nextLeafIndex).keys.card % 2 ^ 64
      rw [card_keys_insert_of_none _ hnone, hnext]

/-- An accepted record replaces the leaf at its index, which is that of no other property. -/
theorem LeavesOf.submit {s : State} {leaf : ℕ → BaseElement} (hl : LeavesOf s leaf) {record : Record} {x : BaseElement}
    (hnum : Numbered (Canister.submit s record x).leafIndexByProperty) (hx : leafHash record = .ok x) :
    LeavesOf (Canister.submit s record x) (Function.update leaf (assignIndex s record.propertyId).1 x) := by
  have hown : (Canister.submit s record x).leafIndexByProperty.lookup record.propertyId =
      some (assignIndex s record.propertyId).1 := by rw [submit_lookup, if_pos rfl]
  refine ⟨fun p i r hp hr => ?_, fun i hi => ?_⟩
  · rw [submit_records, lookup_insert] at hr
    by_cases hpr : p = record.propertyId
    · rw [if_pos hpr] at hr
      cases hr
      rw [hpr, hown] at hp
      cases hp
      rw [Function.update_self, hx]
    · have hij : i ≠ (assignIndex s record.propertyId).1 := by
        rintro rfl
        exact hpr (hnum.inj p _ _ hp hown)
      rw [if_neg hpr] at hr
      rw [submit_lookup, if_neg hpr] at hp
      rw [Function.update_of_ne hij]
      exact hl.assigned p i r hp hr
  · have hij : i ≠ (assignIndex s record.propertyId).1 := by
      rintro rfl
      exact hi _ hown
    rw [Function.update_of_ne hij]
    refine hl.free i fun p hp => hi p ?_
    rw [submit_lookup]
    split
    · rename_i hpr
      rw [hpr] at hp
      rw [assignIndex_of_some hp]
    · exact hp

theorem TreeInv.submit {s : State} (h : TreeInv s) {record : Record} {x : BaseElement} (hx : leafHash record = .ok x) :
    TreeInv (submit s record x) := by
  obtain ⟨leaf, hl, hfull⟩ := h.nodes
  have hnodes := submit_nodes hfull (rfl : (assignIndex s record.propertyId).1 = _) x
  obtain ⟨hnum, hnext⟩ := h.submit_numbered record x
  refine ⟨fun k r hk => ?_, (submit_zeroHashes s record x).trans h.zeros, fun p => ?_, hnext, hnum.lt, hnum.inj,
    hnum.surj, ⟨_, hl.submit hnum hx, hnodes⟩, fun hlt => ?_⟩
  · rw [submit_records, lookup_insert] at hk
    split at hk
    · rename_i hkp
      cases hk
      exact hkp.symm
    · exact h.keyed k r hk
  · rw [submit_records, lookup_insert, submit_lookup]
    by_cases hp : p = record.propertyId
    · rw [if_pos hp, if_pos hp]
      exact ⟨fun _ => ⟨_, rfl⟩, fun _ => ⟨_, rfl⟩⟩
    · rw [if_neg hp, if_neg hp]
      exact h.registered p
  · have hj := hlt record.propertyId (assignIndex s record.propertyId).1 (by rw [submit_lookup, if_pos rfl])
    rw [submit_currentRoot, Nat.div_eq_of_lt hj]

/-! ## Every reachable state -/

theorem TreeInv.step {s s' : State} {e : Event} (h : TreeInv s) (hst : Step s e s') : TreeInv s' := by
  cases step_change h.keyed hst with
  | silent => exact h
  | admins => exact h.frame rfl rfl rfl rfl rfl (.inl rfl)
  | submitted _ hx => exact h.submit hx
  | requested => exact h.frame rfl rfl rfl rfl rfl (.inl rfl)
  | throttled => exact h
  | failed => exact h.frame rfl rfl rfl rfl rfl (.inl rfl)
  | verified => exact h.frame rfl rfl rfl rfl rfl (.inl rfl)
  | heartbeat =>
    rename_i now
    obtain ⟨_, _, _, _, _, _, heq, -⟩ := heartbeatImpl_spec s now.ns
    rw [heq]
    exact h.frame rfl rfl rfl rfl rfl (.inl rfl)
  | upgraded =>
    refine h.frame rfl rfl h.zeros.symm rfl rfl (.inr ?_)
    unfold nodeAt
    rw [h.zeros]

theorem treeInv_reachable {tr : Trace} {s : State} (h : CanisterRun tr s) : TreeInv s :=
  h.invariant treeInv_fresh fun _ _ _ hinv hst => hinv.step hst

/-- A step keeps every assigned index. -/
theorem index_step {s s' : State} {e : Event} (hk : Keyed s) (hst : Step s e s') {p : UInt64} {i : ℕ}
    (hp : s.leafIndexByProperty.lookup p = some i) : s'.leafIndexByProperty.lookup p = some i := by
  cases step_change hk hst with
  | submitted =>
    rw [submit_lookup]
    split
    · rename_i hpr
      rw [hpr] at hp
      rw [assignIndex_of_some hp]
    · exact hp
  | heartbeat => rwa [heartbeatImpl_leafIndexByProperty]
  | _ => exact hp

/-- An assigned index stays assigned along a run. -/
theorem index_run {tr tr' : Trace} {s s' : State} (h : CanisterRun tr s) (h' : Run Step s tr' s') {p : UInt64} {i : ℕ}
    (hp : s.leafIndexByProperty.lookup p = some i) : s'.leafIndexByProperty.lookup p = some i := by
  exact h.invariant_from h' (P := fun _ s => s.leafIndexByProperty.lookup p = some i) hp
    fun _ _ _ _ hr hp hst => index_step (treeInv_reachable hr).keyed hst hp

/-! ## The registry as a tree -/

/-- The index of a property. -/
def indexOf (s : State) (p : UInt64) : ℕ := (s.leafIndexByProperty.lookup p).getD 0

theorem lookup_indexOf {s : State} {p : UInt64} (h : p ∈ s.leafIndexByProperty.keys) :
    s.leafIndexByProperty.lookup p = some (indexOf s p) := by
  obtain ⟨i, hi⟩ := (mem_keys_iff _ _).1 h
  unfold indexOf
  rw [hi, Option.getD_some]

/-- Two states with the same records and indices have the same leaves. -/
theorem LeavesOf.unique {s s' : State} {leaf leaf' : ℕ → BaseElement} (hinv : TreeInv s) (h : LeavesOf s leaf)
    (h' : LeavesOf s' leaf') (hrec : s'.records = s.records)
    (hidx : s'.leafIndexByProperty = s.leafIndexByProperty) : leaf' = leaf := by
  funext i
  by_cases hi : ∃ p, s.leafIndexByProperty.lookup p = some i
  · obtain ⟨p, hp⟩ := hi
    obtain ⟨r, hr⟩ := (hinv.registered p).2 ⟨i, hp⟩
    have h1 := h.assigned p i r hp hr
    have h2 := h'.assigned p i r (hidx ▸ hp) (hrec ▸ hr)
    rw [h1] at h2
    exact (Except.ok.inj h2).symm
  · have hi : ∀ p, s.leafIndexByProperty.lookup p ≠ some i := fun p hp => hi ⟨p, hp⟩
    rw [h.free i hi, h'.free i (by rw [hidx]; exact hi)]

/-- The siblings stored above a registered leaf fold it to its ancestor at level 25. -/
theorem TreeInv.path_to_top {s : State} (h : TreeInv s) {p : UInt64} {i : ℕ} {r : Record} {x : BaseElement}
    (hp : s.leafIndexByProperty.lookup p = some i) (hr : s.records.lookup p = some r) (hx : leafHash r = .ok x) :
    foldPath nodeHash x (path (nodeAt s) treeDepth 0 i) = nodeAt s treeDepth (i / 2 ^ treeDepth) := by
  obtain ⟨leaf, hl, hfull⟩ := h.nodes
  have hleaf : x = fullNode nodeHash leaf 0 i := by
    have := hl.assigned p i r hp hr
    rw [hx] at this
    exact Except.ok.inj this
  have hpath : path (nodeAt s) treeDepth 0 i = path (fullNode nodeHash leaf) treeDepth 0 i :=
    path_congr treeDepth 0 i fun k hk => hfull _ (by omega) _
  rw [hpath, hleaf, foldPath_fullNode, Nat.zero_add, hfull treeDepth le_rfl]

/-- With every index inside the tree, that ancestor is the root. -/
theorem TreeInv.path_to_root {s : State} (h : TreeInv s)
    (hlt : ∀ p i, s.leafIndexByProperty.lookup p = some i → i < 2 ^ treeDepth) {p : UInt64} {i : ℕ} {r : Record}
    {x : BaseElement} (hp : s.leafIndexByProperty.lookup p = some i) (hr : s.records.lookup p = some r)
    (hx : leafHash r = .ok x) : foldPath nodeHash x (path (nodeAt s) treeDepth 0 i) = s.currentRoot := by
  rw [h.path_to_top hp hr hx, Nat.div_eq_of_lt (hlt p i hp), h.root hlt]

/-- With at most `2^25` properties, the registered ids are indexed bijectively by `0..next_leaf_index`,
for good; every node, stored or implicit, is that of the full tree over the current records, with zero
at the free leaves; the root is its root, and so depends on the records and their indices alone. -/
theorem tree_is_full {tr : Trace} {s : State} (h : CanisterRun tr s)
    (hcap : s.leafIndexByProperty.keys.card ≤ 2 ^ treeDepth) :
    s.records.keys = s.leafIndexByProperty.keys ∧
    Set.BijOn (indexOf s) s.leafIndexByProperty.keys (Set.Iio s.nextLeafIndex) ∧
    (∀ tr' s', Run Step s tr' s' → ∀ p i, s.leafIndexByProperty.lookup p = some i →
      s'.leafIndexByProperty.lookup p = some i) ∧
    (∃ leaf, LeavesOf s leaf ∧
      (∀ l ≤ treeDepth, ∀ i < 2 ^ (treeDepth - l), nodeAt s l i = fullNode nodeHash leaf l i) ∧
      s.currentRoot = fullNode nodeHash leaf treeDepth 0) ∧
    ∀ tr' s', CanisterRun tr' s' → s'.records = s.records → s'.leafIndexByProperty = s.leafIndexByProperty →
      s'.currentRoot = s.currentRoot := by
  have hinv := treeInv_reachable h
  have hnext : s.nextLeafIndex = s.leafIndexByProperty.keys.card := by
    rw [hinv.next, Nat.mod_eq_of_lt (lt_of_le_of_lt hcap (by norm_num))]
  have hlt : ∀ p i, s.leafIndexByProperty.lookup p = some i → i < 2 ^ treeDepth := fun p i hp =>
    lt_of_lt_of_le (hinv.index_lt p i hp) hcap
  obtain ⟨leaf, hl, hfull⟩ := hinv.nodes
  have hroot : s.currentRoot = fullNode nodeHash leaf treeDepth 0 := (hinv.root hlt).trans (hfull treeDepth le_rfl 0)
  refine ⟨?_, ⟨?_, ?_, ?_⟩, fun tr' s' h' p i hp => index_run h h' hp,
    ⟨leaf, hl, fun l hl i _ => hfull l hl i, hroot⟩, ?_⟩
  · ext p
    rw [mem_keys_iff, mem_keys_iff]
    exact hinv.registered p
  · intro p hp
    rw [Set.mem_Iio, hnext]
    exact hinv.index_lt p _ (lookup_indexOf hp)
  · intro p hp q hq hpq
    have hp' := lookup_indexOf hp
    rw [hpq] at hp'
    exact hinv.index_inj p q _ hp' (lookup_indexOf hq)
  · intro i hi
    rw [Set.mem_Iio, hnext] at hi
    obtain ⟨p, hp⟩ := hinv.index_surj i hi
    refine ⟨p, (mem_keys_iff _ _).2 ⟨i, hp⟩, ?_⟩
    unfold indexOf
    rw [hp, Option.getD_some]
  · intro tr' s' h' hrec hidx
    have hinv' := treeInv_reachable h'
    obtain ⟨leaf', hl', hfull'⟩ := hinv'.nodes
    have hroot' := (hinv'.root (by rw [hidx]; exact hlt)).trans (hfull' treeDepth le_rfl 0)
    rw [hroot', hroot, LeavesOf.unique hinv hl hl' hrec hidx]

/-! ## Registries of any size -/

def registrar : Principal := ⟨[1]⟩

/-- A cryptographic phase that rejects everything. -/
def rejectAll : Winterfell := fun _ _ => .panicked

def timeZero : Time := ⟨0, le_rfl, by norm_num⟩

/-- An hour after the epoch, when the calls at the epoch go stale. -/
def timeHour : Time := ⟨throttleRetentionNs, by decide, by decide⟩

/-- The commitment to secret 42 and property field 5. -/
def plainCommitment : BaseElement :=
  Air.hash [BaseElement.new domainOwnerCommitment, BaseElement.new 42, BaseElement.new 5]

/-- An unencumbered, licensed property. -/
def plainRecord (n : ℕ) : Record := ⟨UInt64.ofNat n, feToString plainCommitment, 0, 1, 100⟩

def plainLeaf : BaseElement :=
  Air.hash [BaseElement.new domainLeaf, fe registryId, plainCommitment, fe 0, fe 1, fe 100]

theorem leafHash_plainRecord (n : ℕ) : leafHash (plainRecord n) = .ok plainLeaf :=
  leafHash_ok (r := plainRecord n) (c := plainCommitment) (parseFe_feToString plainCommitment)

/-- The state after `registrar` becomes the admin and submits the properties `0..n`. -/
def enrolled : ℕ → State
  | 0 => { freshState with admins := [registrar] }
  | n + 1 => submit (enrolled n) (plainRecord n) plainLeaf

theorem enrolled_admin : ∀ n, isAdmin (enrolled n) registrar = true
  | 0 => rfl
  | n + 1 => by
    unfold isAdmin
    rw [enrolled, submit_admins]
    exact enrolled_admin n

/-- The registrar submits a record. -/
theorem registrar_submits {s : State} {record : Record} {leaf : BaseElement} (ha : isAdmin s registrar = true)
    (hleaf : leafHash record = .ok leaf) :
    Step s (.call rejectAll registrar timeZero (.submitRecord record)
      (.root (.ok (feToString (submit s record leaf).currentRoot)))) (submit s record leaf) := by
  have h := Step.call (s := s) rejectAll registrar timeZero (.submitRecord record)
  simp only [exec, submitRecordImpl_eq, ha, if_true, hleaf] at h
  exact h

theorem enrolled_step (n : ℕ) : Step (enrolled n)
    (.call rejectAll registrar timeZero (.submitRecord (plainRecord n))
      (.root (.ok (feToString (enrolled (n + 1)).currentRoot)))) (enrolled (n + 1)) :=
  registrar_submits (enrolled_admin n) (leafHash_plainRecord n)

theorem enrolled_run : ∀ n, ∃ tr, CanisterRun tr (enrolled n)
  | 0 => ⟨_, Run.nil.snoc (.call rejectAll registrar timeZero (.bootstrapAdmin true registrar))⟩
  | n + 1 => by
    obtain ⟨tr, h⟩ := enrolled_run n
    exact ⟨_, h.snoc (enrolled_step n)⟩

theorem plainRecord_id {n : ℕ} (h : n < 2 ^ 64) : (plainRecord n).propertyId.toNat = n := by
  show (UInt64.ofNat n).toNat = n
  rw [UInt64.toNat_ofNat', Nat.mod_eq_of_lt h]

/-- Property `p` has index `p` as long as the ids do not wrap. -/
theorem enrolled_index : ∀ n < 2 ^ 64, (enrolled n).nextLeafIndex = n ∧
    (enrolled n).leafIndexByProperty.keys.card = n ∧
    ∀ p, (enrolled n).leafIndexByProperty.lookup p = if p.toNat < n then some p.toNat else none
  | 0, _ => by
    refine ⟨rfl, by rw [enrolled, freshState, Finmap.keys_empty, Finset.card_empty], fun p => ?_⟩
    rw [if_neg (Nat.not_lt_zero _)]
    exact Finmap.lookup_empty p
  | n + 1, hn => by
    obtain ⟨hnext, hcard, hlook⟩ := enrolled_index n (by omega)
    have hid := plainRecord_id (n := n) (by omega)
    obtain ⟨j, hj, -⟩ | ⟨hnone, hassign⟩ := assignIndex_cases (enrolled n) (plainRecord n).propertyId
    · rw [hlook, hid, if_neg (Nat.lt_irrefl n)] at hj
      cases hj
    rw [enrolled, submit_nextLeafIndex, submit_leafIndexByProperty, hassign]
    refine ⟨?_, ?_, fun p => ?_⟩
    · show ((enrolled n).nextLeafIndex + 1) % 2 ^ 64 = n + 1
      rw [hnext, Nat.mod_eq_of_lt hn]
    · show ((enrolled n).leafIndexByProperty.insert (plainRecord n).propertyId (enrolled n).nextLeafIndex).keys.card = _
      rw [card_keys_insert_of_none _ hnone, hcard]
    · show ((enrolled n).leafIndexByProperty.insert (plainRecord n).propertyId (enrolled n).nextLeafIndex).lookup p = _
      rw [lookup_insert, hlook, hnext]
      by_cases hp : p = (plainRecord n).propertyId
      · rw [if_pos hp, hp, hid, if_pos (Nat.lt_succ_self n)]
      · have hpn : p.toNat ≠ n := fun h => hp (UInt64.toNat_inj.1 (h.trans hid.symm))
        rw [if_neg hp]
        by_cases hlt : p.toNat < n
        · rw [if_pos hlt, if_pos (by omega)]
        · rw [if_neg hlt, if_neg (by omega)]

theorem tree_is_full_enrolled : ∃ leaf, LeavesOf (enrolled 3) leaf ∧
    (∀ l ≤ treeDepth, ∀ i < 2 ^ (treeDepth - l), nodeAt (enrolled 3) l i = fullNode nodeHash leaf l i) ∧
    (enrolled 3).currentRoot = fullNode nodeHash leaf treeDepth 0 := by
  obtain ⟨tr, h⟩ := enrolled_run 3
  have hcap : (enrolled 3).leafIndexByProperty.keys.card ≤ 2 ^ treeDepth := by
    rw [(enrolled_index 3 (by norm_num)).2.1]
    norm_num
  exact (tree_is_full h hcap).2.2.2.1

end Yaqeen.Canister
