/-
What the sparse tree stores. In every reachable state the stored nodes are the ancestors of the assigned
leaves and no others, whatever was submitted, resubmitted or restored, so the tree of `n` properties
takes less than `2n + 26` nodes.
-/
import Yaqeen.Canister.Tree

namespace Yaqeen.Canister

open Air FinMap Runs HashTree

/-! ## The stored nodes -/

/-- The loop stores the ancestors of its node. -/
theorem insertLeafLoop_keys : ∀ n s level idx cur l i, (l, i) ∈ (insertLeafLoop n s level idx cur).1.nodes.keys ↔
    (l, i) ∈ s.nodes.keys ∨ level < l ∧ l ≤ level + n ∧ i = idx / 2 ^ (l - level)
  | 0, s, level, idx, cur, l, i => by
    constructor
    · exact .inl
    · rintro (h | ⟨h, h', -⟩)
      · exact h
      · omega
  | n + 1, s, level, idx, cur, l, i => by
    rw [insertLeafLoop_succ]
    simp only
    rw [insertLeafLoop_keys n]
    have hkeys : ∀ x, (l, i) ∈ (withNode s (level + 1) (idx / 2) x).nodes.keys ↔
        (l, i) = (level + 1, idx / 2) ∨ (l, i) ∈ s.nodes.keys := by
      intro x
      simp only [withNode, Finmap.mem_keys, Finmap.mem_insert]
    rw [hkeys, Prod.mk.injEq]
    constructor
    · rintro ((⟨rfl, rfl⟩ | h) | ⟨hl, hle, rfl⟩)
      · refine .inr ⟨by omega, by omega, ?_⟩
        rw [Nat.add_sub_cancel_left, pow_one]
      · exact .inl h
      · refine .inr ⟨by omega, by omega, ?_⟩
        rw [Nat.div_div_eq_div_mul, ← pow_succ', show l - (level + 1) + 1 = l - level by omega]
    · rintro (h | ⟨hl, hle, rfl⟩)
      · exact .inl (.inr h)
      · rcases Nat.eq_or_lt_of_le (Nat.succ_le_of_lt hl) with heq | hlt
        · refine .inl (.inl ⟨heq.symm, ?_⟩)
          rw [← heq, show level.succ - level = 1 by omega, pow_one]
        · refine .inr ⟨hlt, by omega, ?_⟩
          rw [Nat.div_div_eq_div_mul, ← pow_succ', show l - (level + 1) + 1 = l - level by omega]

theorem insertLeaf_keys (s : State) (index : ℕ) (leaf : BaseElement) (l i : ℕ) :
    (l, i) ∈ (insertLeaf s index leaf).nodes.keys ↔ (l, i) ∈ s.nodes.keys ∨ l ≤ treeDepth ∧ i = index / 2 ^ l := by
  have hnodes : (insertLeaf s index leaf).nodes =
      (insertLeafLoop treeDepth (withNode s 0 index leaf) 0 index leaf).1.nodes := by
    have hw : ({ s with nodes := s.nodes.insert (0, index) leaf } : State) = withNode s 0 index leaf := rfl
    simp only [insertLeaf, hw]
  have hkeys : (l, i) ∈ (withNode s 0 index leaf).nodes.keys ↔ (l, i) = (0, index) ∨ (l, i) ∈ s.nodes.keys := by
    simp only [withNode, Finmap.mem_keys, Finmap.mem_insert]
  rw [hnodes, insertLeafLoop_keys, hkeys, Prod.mk.injEq, Nat.zero_add, Nat.sub_zero]
  constructor
  · rintro ((⟨rfl, rfl⟩ | h) | ⟨-, hl, rfl⟩)
    · refine .inr ⟨Nat.zero_le _, ?_⟩
      rw [pow_zero, Nat.div_one]
    · exact .inl h
    · exact .inr ⟨hl, rfl⟩
  · rintro (h | ⟨hl, rfl⟩)
    · exact .inl (.inr h)
    · rcases Nat.eq_zero_or_pos l with rfl | hpos
      · refine .inl (.inl ⟨rfl, ?_⟩)
        rw [pow_zero, Nat.div_one]
      · exact .inr ⟨hpos, hl, rfl⟩

theorem submit_keys (s : State) (record : Record) (leaf : BaseElement) (l i : ℕ) :
    (l, i) ∈ (submit s record leaf).nodes.keys ↔
      (l, i) ∈ s.nodes.keys ∨ l ≤ treeDepth ∧ i = (assignIndex s record.propertyId).1 / 2 ^ l := by
  unfold submit
  rw [insertLeaf_keys]
  obtain ⟨j, -, hassign⟩ | ⟨-, hassign⟩ := assignIndex_cases s record.propertyId
  · rw [hassign]
  · rw [hassign]

/-! ## Every reachable state -/

/-- Exactly the ancestors of the assigned leaves are stored. -/
def StoresAncestors (s : State) : Prop := ∀ l i, (l, i) ∈ s.nodes.keys ↔
  l ≤ treeDepth ∧ ∃ p j, s.leafIndexByProperty.lookup p = some j ∧ i = j / 2 ^ l

theorem StoresAncestors.submit {s : State} (h : StoresAncestors s) (record : Record) (leaf : BaseElement) :
    StoresAncestors (submit s record leaf) := by
  intro l i
  rw [submit_keys, h l i]
  constructor
  · rintro (⟨hl, p, j, hp, rfl⟩ | ⟨hl, rfl⟩)
    · refine ⟨hl, p, j, ?_, rfl⟩
      rw [submit_lookup]
      split_ifs with hpr
      · rw [hpr] at hp
        rw [assignIndex_of_some hp]
      · exact hp
    · refine ⟨hl, record.propertyId, _, ?_, rfl⟩
      rw [submit_lookup, if_pos rfl]
  · rintro ⟨hl, p, j, hp, rfl⟩
    rw [submit_lookup] at hp
    split_ifs at hp with hpr
    · cases hp
      exact .inr ⟨hl, rfl⟩
    · exact .inl ⟨hl, p, j, hp, rfl⟩

theorem storesAncestors_run {tr : Trace} {s : State} (h : CanisterRun tr s) : StoresAncestors s := by
  refine h.invariant_history (P := fun _ s => StoresAncestors s) ?_ fun tr s e s' hr ih hst => ?_
  · intro l i
    constructor
    · intro hmem
      cases hmem
    · rintro ⟨-, p, j, hp, -⟩
      cases hp
  · cases step_change (treeInv_reachable hr).keyed hst with
    | submitted => exact ih.submit _ _
    | heartbeat =>
      obtain ⟨_, _, _, _, _, _, heq, -⟩ := heartbeatImpl_spec s _
      rw [heq]
      exact ih
    | _ => exact ih

/-- In every reachable state the stored nodes are the ancestors of the first `n` leaves, for the `n` properties
that have a record, and no others: as many as the levels have nodes above these leaves, `2n + 26` at most. -/
theorem storage_exact {tr : Trace} {s : State} (h : CanisterRun tr s) :
    s.nodes.keys = ancestors treeDepth s.records.keys.card ∧
      s.nodes.keys.card = ∑ l ∈ Finset.range (treeDepth + 1), (s.records.keys.card + 2 ^ l - 1) / 2 ^ l ∧
      s.nodes.keys.card ≤ 2 * s.records.keys.card + 26 := by
  have hinv := treeInv_reachable h
  have hrecords : s.records.keys = s.leafIndexByProperty.keys := by
    ext p
    rw [mem_keys_iff, mem_keys_iff]
    exact hinv.registered p
  have hkeys : s.nodes.keys = ancestors treeDepth s.records.keys.card := by
    ext ⟨l, i⟩
    rw [storesAncestors_run h l i, mem_ancestors, hrecords]
    constructor
    · rintro ⟨hl, p, j, hp, rfl⟩
      exact ⟨hl, j, hinv.index_lt p j hp, rfl⟩
    · rintro ⟨hl, j, hj, rfl⟩
      obtain ⟨p, hp⟩ := hinv.index_surj j hj
      exact ⟨hl, p, j, hp, rfl⟩
  refine ⟨hkeys, ?_, ?_⟩
  · rw [hkeys, card_ancestors]
  · rw [hkeys]
    exact card_ancestors_le treeDepth _

theorem storage_exact_enrolled : (enrolled 3).nodes.keys = ancestors treeDepth (enrolled 3).records.keys.card := by
  obtain ⟨tr, h⟩ := enrolled_run 3
  exact (storage_exact h).1

end Yaqeen.Canister
