/-
The capacity of the tree. `submit_record` hands out indices without comparing them with the number of
leaves, so the property that comes after `2^25` others is accepted with an index outside the tree;
as long as no new property is accepted at that point, every index stays inside and the root is the
node at (25, 0).
-/
import Yaqeen.Canister.Tree

namespace Yaqeen.Canister

open Air FinMap Runs HashTree

/-- A transition is within capacity if any new property an admin submits with a commitment that
parses still finds a free leaf. -/
def WithinCapacity (τ : Transition State Event) : Prop :=
  ∀ w caller now record r, τ.label = .call w caller now (.submitRecord record) r → isAdmin τ.pre caller = true →
    (∃ leaf, leafHash record = .ok leaf) → τ.pre.leafIndexByProperty.lookup record.propertyId = none →
    τ.pre.nextLeafIndex < 2 ^ treeDepth

/-- The registry fits its tree: no index is outside, the root is the node above all leaves, and
every registered leaf has its path to that root. -/
structure FitsTree (s : State) : Prop where
  indices : ∀ p i, s.leafIndexByProperty.lookup p = some i → i < 2 ^ treeDepth
  root : s.currentRoot = nodeAt s treeDepth 0
  paths : ∀ p i r x, s.leafIndexByProperty.lookup p = some i → s.records.lookup p = some r → leafHash r = .ok x →
    foldPath nodeHash x (path (nodeAt s) treeDepth 0 i) = s.currentRoot

theorem TreeInv.fitsTree {s : State} (h : TreeInv s)
    (hlt : ∀ p i, s.leafIndexByProperty.lookup p = some i → i < 2 ^ treeDepth) : FitsTree s :=
  ⟨hlt, h.root hlt, fun _ _ _ _ hp hr hx => h.path_to_root hlt hp hr hx⟩

theorem indices_step {s s' : State} {e : Event} (hinv : TreeInv s) (hst : Step s e s') (hw : WithinCapacity ⟨s, e, s'⟩)
    (h : ∀ p i, s.leafIndexByProperty.lookup p = some i → i < 2 ^ treeDepth) :
    ∀ p i, s'.leafIndexByProperty.lookup p = some i → i < 2 ^ treeDepth := by
  cases step_change hinv.keyed hst with
  | submitted ha hx =>
    rename_i w caller now record leaf
    intro p i hp
    rw [submit_lookup] at hp
    split at hp
    · cases hp
      obtain ⟨j, hj, hassign⟩ | ⟨hnone, hassign⟩ := assignIndex_cases s record.propertyId
      · rw [hassign]
        exact h _ j hj
      · rw [hassign]
        exact hw _ _ _ _ _ rfl ha ⟨leaf, hx⟩ hnone
    · exact h p i hp
  | heartbeat => rwa [heartbeatImpl_leafIndexByProperty]
  | _ => exact h

/-- A submission of a new property to a full tree, within capacity, is refused and changes nothing. -/
theorem full_tree_refuses {s s' : State} {w : Winterfell} {caller : Principal} {now : Time} {record : Record}
    {r : Reply} (hst : Step s (.call w caller now (.submitRecord record) r) s')
    (hw : WithinCapacity ⟨s, .call w caller now (.submitRecord record) r, s'⟩)
    (hnew : s.leafIndexByProperty.lookup record.propertyId = none) (hfull : 2 ^ treeDepth ≤ s.nextLeafIndex) :
    (∃ e, r = .root (.error e)) ∧ s' = s := by
  have hout := submitRecordImpl_eq s caller record
  cases hst with
  | call =>
    simp only [exec, hout] at hw ⊢
    by_cases ha : isAdmin s caller = true
    · rw [if_pos ha]
      cases hleaf : leafHash record with
      | error e => exact ⟨⟨e, rfl⟩, rfl⟩
      | ok leaf =>
        have := hw _ _ _ _ _ rfl ha ⟨leaf, hleaf⟩ hnew
        exact absurd this (not_lt.2 hfull)
    · rw [if_neg ha]
      exact ⟨⟨_, rfl⟩, rfl⟩

/-- In a run within capacity every state reached fits its tree, and a new property submitted once all
leaves are assigned is refused with nothing changed. -/
theorem fits_tree_within_capacity {tr : Trace} {s : State} (h : CanisterRun tr s) (hw : ∀ τ ∈ tr, WithinCapacity τ) :
    FitsTree s ∧
    (∀ τ ∈ tr, FitsTree τ.pre ∧ FitsTree τ.post) ∧
    ∀ τ ∈ tr, ∀ w caller now record r, τ.label = .call w caller now (.submitRecord record) r →
      τ.pre.leafIndexByProperty.lookup record.propertyId = none → 2 ^ treeDepth ≤ τ.pre.nextLeafIndex →
      (∃ e, r = .root (.error e)) ∧ τ.post = τ.pre := by
  induction h with
  | nil =>
    have hfresh : FitsTree freshState := treeInv_fresh.fitsTree fun p i hp => (by cases hp)
    exact ⟨hfresh, fun τ hτ => absurd hτ List.not_mem_nil, fun τ hτ => absurd hτ List.not_mem_nil⟩
  | @snoc tr s e s' hr hst ih =>
    have hlast : WithinCapacity ⟨s, e, s'⟩ := hw _ (List.mem_append_right _ List.mem_cons_self)
    obtain ⟨hs, hall, hrefuse⟩ := ih fun τ hτ => hw τ (List.mem_append_left _ hτ)
    have hinv := treeInv_reachable hr
    have hs' : FitsTree s' := (hinv.step hst).fitsTree (indices_step hinv hst hlast hs.indices)
    refine ⟨hs', fun τ hτ => ?_, fun τ hτ => ?_⟩
    · rcases List.mem_append.1 hτ with hτ | hτ
      · exact hall τ hτ
      · rw [List.mem_singleton.1 hτ]
        exact ⟨hs, hs'⟩
    · rcases List.mem_append.1 hτ with hτ | hτ
      · exact hrefuse τ hτ
      · rw [List.mem_singleton.1 hτ]
        rintro w caller now record r rfl hnew hfull
        exact full_tree_refuses hst hlast hnew hfull

theorem fits_tree_enrolled : FitsTree (enrolled 3) := by
  have hboot : Step freshState (.call rejectAll registrar timeZero (.bootstrapAdmin true registrar) (.done (.ok ())))
      (enrolled 0) := .call rejectAll registrar timeZero (.bootstrapAdmin true registrar)
  have hwithin (n : ℕ) (hn : n < 2 ^ treeDepth) (e : Event) (s' : State) : WithinCapacity ⟨enrolled n, e, s'⟩ := by
    rintro w caller now record r - - - -
    rw [(enrolled_index n (hn.trans (by norm_num))).1]
    exact hn
  refine (fits_tree_within_capacity ((((Run.nil.snoc hboot).snoc (enrolled_step 0)).snoc (enrolled_step 1)).snoc
    (enrolled_step 2)) fun τ hτ => ?_).1
  simp only [List.nil_append, List.cons_append, List.mem_cons, List.not_mem_nil, or_false] at hτ
  rcases hτ with rfl | rfl | rfl | rfl
  · rintro w caller now record r heq
    cases heq
  · exact hwithin 0 (by norm_num) _ _
  · exact hwithin 1 (by norm_num) _ _
  · exact hwithin 2 (by norm_num) _ _

/-- With all `2^25` leaves assigned, one more property is accepted and gets index `2^25`. -/
theorem over_capacity_accepted : ∃ tr s s' root, CanisterRun tr s ∧ s.nextLeafIndex = 2 ^ treeDepth ∧
    s.leafIndexByProperty.lookup (plainRecord (2 ^ treeDepth)).propertyId = none ∧
    Step s (.call rejectAll registrar timeZero (.submitRecord (plainRecord (2 ^ treeDepth))) (.root (.ok root))) s' ∧
    s'.leafIndexByProperty.lookup (plainRecord (2 ^ treeDepth)).propertyId = some (2 ^ treeDepth) := by
  have hn : 2 ^ treeDepth + 1 < 2 ^ 64 := by norm_num
  generalize 2 ^ treeDepth = n at hn
  obtain ⟨tr, h⟩ := enrolled_run n
  obtain ⟨hnext, -, hlook⟩ := enrolled_index n (by omega)
  obtain ⟨-, -, hlook'⟩ := enrolled_index (n + 1) hn
  have hid := plainRecord_id (n := n) (by omega)
  refine ⟨tr, enrolled n, enrolled (n + 1), _, h, hnext, ?_, enrolled_step n, ?_⟩
  · rw [hlook, hid, if_neg (Nat.lt_irrefl n)]
  · rw [hlook', hid, if_pos (Nat.lt_succ_self n)]

end Yaqeen.Canister
