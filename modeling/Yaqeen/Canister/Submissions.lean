/-
The registry read off the history of a run: records, indices, every node of the tree, the root and the
served proofs are those of the register of the accepted submissions, in their order, whatever calls,
ticks and upgrades stand between them. The root in turn commits to that register: where the hash does
not collide, equal roots hold the same leaf contents at the same indices.
-/
import Yaqeen.Canister.MerkleProof
import Yaqeen.Canister.RegistryFacts
import Yaqeen.Lib.Register

namespace Yaqeen.Canister

open Air FinMap Runs HashTree

/-! ## Titles -/

/-- A record with the field element its commitment text denotes. -/
structure Title where
  record : Record
  commitment : BaseElement
  parses : parseFe record.ownerCommitment = .ok commitment

def Title.propertyId (t : Title) : UInt64 := t.record.propertyId

/-- What the leaf of a title hashes. -/
def Title.inputs (t : Title) : List BaseElement :=
  [BaseElement.new domainLeaf, fe registryId, t.commitment, fe t.record.encumbranceFlag, fe t.record.licenseStatus,
    fe t.record.licenseExpiry]

def Title.leaf (t : Title) : BaseElement := Air.hash t.inputs

theorem Title.leafHash (t : Title) : leafHash t.record = .ok t.leaf := leafHash_ok t.parses

/-- The record of a title determines it. -/
theorem Title.eq_of_record {t t' : Title} (h : t.record = t'.record) : t = t' := by
  obtain ⟨record, c, hc⟩ := t
  obtain ⟨record', c', hc'⟩ := t'
  cases h
  cases hc.symm.trans hc'
  rfl

/-- Titles in the order in which their properties were first submitted. -/
abbrev Titles : Type := Register Title.propertyId

namespace Titles

/-- The leaf at an index: zero where no title stands. -/
def leafAt (g : Titles) (i : ℕ) : BaseElement := (g.entries[i]?).elim 0 Title.leaf

def root (g : Titles) : BaseElement := fullNode nodeHash g.leafAt treeDepth 0

/-- The proof for the title at an index. -/
def proof (g : Titles) (i : ℕ) : MerkleProof :=
  ⟨i, (path (fullNode nodeHash g.leafAt) treeDepth 0 i).map fun q => feToString q.1,
    (List.range treeDepth).map i.testBit, feToString g.root⟩

end Titles

/-! ## The accepted submissions of a trace -/

/-- The title that a call of `submit_record` entered. -/
def Event.submission : Event → Option Title
  | .call _ _ _ (.submitRecord record) (.root (.ok _)) =>
    match h : parseFe record.ownerCommitment with
    | .ok c => some ⟨record, c, h⟩
    | .error _ => none
  | _ => none

def submissions (tr : Trace) : List Title := Run.observed Event.submission tr

def titlesOf (tr : Trace) : Titles := Register.ofList (submissions tr)

theorem titlesOf_snoc (tr : Trace) (τ : Transition State Event) : titlesOf (tr ++ [τ]) =
    match τ.label.submission with
    | some t => (titlesOf tr).enter t
    | none => titlesOf tr := by
  unfold titlesOf submissions
  rw [Run.observed_snoc]
  cases τ.label.submission with
  | some t => exact Register.ofList_concat _ t
  | none => rw [Option.toList_none, List.append_nil]

theorem exists_title {record : Record} {leaf : BaseElement} (h : leafHash record = .ok leaf) :
    ∃ t : Title, t.record = record ∧ t.leaf = leaf ∧ ∀ w caller now text,
      (Event.call w caller now (.submitRecord record) (.root (.ok text))).submission = some t := by
  cases hc : parseFe record.ownerCommitment with
  | error e =>
    unfold leafHash at h
    rw [hc] at h
    cases h
  | ok c =>
    refine ⟨⟨record, c, hc⟩, rfl, ?_, fun w caller now text => ?_⟩
    · have := Title.leafHash ⟨record, c, hc⟩
      rw [h] at this
      exact (Except.ok.inj this).symm
    · unfold Event.submission
      dsimp only
      split
      · rename_i c' hc'
        rw [hc] at hc'
        cases hc'
        rfl
      · rename_i e he
        rw [hc] at he
        cases he

theorem submission_of_silent {w : Winterfell} {caller : Principal} {now : Time} {c : Call} {r : Reply}
    (hr : r.isSilent = true) : (Event.call w caller now c r).submission = none := by
  unfold Event.submission
  split
  · rename_i h
    cases h
    cases hr
  · rfl

/-! ## The registry holds them -/

/-- Records and indices of the state are the entries and slots of the register. -/
structure Registers (s : State) (g : Titles) : Prop where
  records : ∀ p, s.records.lookup p = (g.get p).map Title.record
  slots : ∀ p, s.leafIndexByProperty.lookup p = g.slot p
  size : s.leafIndexByProperty.keys.card = g.size

section

variable {s s' : State} {g : Titles}

theorem Registers.frame (h : Registers s g) (hrec : s'.records = s.records)
    (hidx : s'.leafIndexByProperty = s.leafIndexByProperty) : Registers s' g :=
  ⟨fun p => hrec ▸ h.records p, fun p => hidx ▸ h.slots p, hidx ▸ h.size⟩

/-- The index given to a property is the slot of its title. -/
theorem Registers.assignIndex (h : Registers s g) (hinv : TreeInv s) (t : Title) :
    (assignIndex s t.record.propertyId).1 = g.slotFor t := by
  have hslot := h.slots t.propertyId
  unfold Register.slotFor
  obtain ⟨i, hi, hassign⟩ | ⟨hnone, hassign⟩ := assignIndex_cases s t.record.propertyId
  · rw [hassign, ← hslot, show s.leafIndexByProperty.lookup t.propertyId = some i from hi, Option.getD_some]
  · rw [hassign, ← hslot, show s.leafIndexByProperty.lookup t.propertyId = none from hnone, Option.getD_none, ← h.size]
    exact hinv.next.trans (Nat.mod_eq_of_lt (card_lt_of_free hnone))

theorem Registers.submit (h : Registers s g) (hinv : TreeInv s) (t : Title) :
    Registers (submit s t.record t.leaf) (g.enter t) where
  records p := by
    have hkey : t.record.propertyId = t.propertyId := rfl
    rw [submit_records, lookup_insert, hkey, Register.get_enter, h.records]
    by_cases hp : p = t.propertyId
    · rw [if_pos hp, if_pos hp, Option.map_some]
    · rw [if_neg hp, if_neg hp]
  slots p := by
    rw [submit_lookup, h.assignIndex hinv t, h.slots, Register.slot_enter]
    rfl
  size := by
    rw [submit_leafIndexByProperty]
    obtain ⟨i, hi, hassign⟩ | ⟨hnone, hassign⟩ := assignIndex_cases s t.record.propertyId
    · rw [hassign, h.size, Register.size_enter, ← h.slots, show s.leafIndexByProperty.lookup t.propertyId = some i from hi]
    · rw [hassign, Register.size_enter, ← h.slots, show s.leafIndexByProperty.lookup t.propertyId = none from hnone]
      show (s.leafIndexByProperty.insert _ _).keys.card = _
      rw [card_keys_insert_of_none _ hnone, h.size]

end

theorem registers_run {tr : Trace} {s : State} (h : CanisterRun tr s) : Registers s (titlesOf tr) := by
  refine h.invariant_history (P := fun tr s => Registers s (titlesOf tr)) ⟨fun _ => rfl, fun _ => rfl, ?_⟩ ?_
  · rfl
  · intro tr s e s' hr ih hst
    have hinv := treeInv_reachable hr
    rw [titlesOf_snoc]
    cases step_change hinv.keyed hst with
    | silent _ hr =>
      rw [submission_of_silent hr]
      exact ih
    | admins admins hc hr =>
      obtain ⟨x, rfl⟩ := hr
      rename_i c
      cases c with
      | submitRecord _ => cases hc
      | _ => exact ih.frame rfl rfl
    | submitted _ hleaf =>
      obtain ⟨t, rfl, rfl, hsub⟩ := exists_title hleaf
      rw [hsub]
      exact ih.submit hinv t
    | heartbeat =>
      obtain ⟨_, _, _, _, _, _, heq, -⟩ := heartbeatImpl_spec s _
      rw [heq]
      exact ih.frame rfl rfl
    | _ => exact ih.frame rfl rfl

/-! ## Nodes, root and proofs -/

section

variable {s : State} {g : Titles} (h : Registers s g) (hinv : TreeInv s)

include h

theorem Registers.title {p : UInt64} {i : ℕ} (hi : s.leafIndexByProperty.lookup p = some i) :
    ∃ t, g.entries[i]? = some t ∧ t.propertyId = p ∧ s.records.lookup p = some t.record := by
  rw [h.slots] at hi
  obtain ⟨t, ht, hp⟩ := Register.slot_eq_some.1 hi
  refine ⟨t, ht, hp, ?_⟩
  rw [h.records, Register.get_eq_slot, hi, Option.bind_some, ht, Option.map_some]

theorem Registers.leafAt {leaf : ℕ → BaseElement} (hl : LeavesOf s leaf) : leaf = g.leafAt := by
  funext i
  unfold Titles.leafAt
  cases ht : g.entries[i]? with
  | some t =>
    have hi : s.leafIndexByProperty.lookup t.propertyId = some i := by
      rw [h.slots]
      exact Register.slot_eq_some.2 ⟨t, ht, rfl⟩
    obtain ⟨t', ht', -, hr⟩ := h.title hi
    rw [ht] at ht'
    cases ht'
    have hleaf := hl.assigned _ i _ hi hr
    rw [t.leafHash] at hleaf
    rw [Option.elim_some]
    exact (Except.ok.inj hleaf).symm
  | none =>
    rw [Option.elim_none]
    refine hl.free i fun p hp => ?_
    obtain ⟨t, ht', -⟩ := h.title hp
    rw [ht] at ht'
    cases ht'

include hinv

theorem Registers.nodes : ∀ l ≤ treeDepth, ∀ i, nodeAt s l i = fullNode nodeHash g.leafAt l i := by
  obtain ⟨leaf, hl, hfull⟩ := hinv.nodes
  rw [← h.leafAt hl]
  exact hfull

variable (hcap : g.size ≤ 2 ^ treeDepth)

include hcap

theorem Registers.root : s.currentRoot = g.root := by
  rw [hinv.root fun p i hi => ?_, h.nodes hinv treeDepth le_rfl]
  · rfl
  · rw [h.slots] at hi
    exact lt_of_lt_of_le (Register.slot_lt hi) hcap

theorem Registers.proof (p : UInt64) : getMerkleProofImpl s p = (g.slot p).map g.proof := by
  rw [← h.slots]
  cases hi : s.leafIndexByProperty.lookup p with
  | none =>
    unfold getMerkleProofImpl
    rw [hi]
    rfl
  | some i =>
    have hpath : path (nodeAt s) treeDepth 0 i = path (fullNode nodeHash g.leafAt) treeDepth 0 i :=
      path_congr treeDepth 0 i fun k hk => h.nodes hinv _ (by omega) _
    have hbits : (path (fullNode nodeHash g.leafAt) treeDepth 0 i).map Prod.snd =
      (List.range treeDepth).map i.testBit := by
      refine List.ext_getElem? fun k => ?_
      by_cases hk : k < treeDepth
      · rw [path_bit hk, List.getElem?_map, List.getElem?_range hk, Option.map_some]
      · rw [List.getElem?_eq_none (by simpa using hk), List.getElem?_eq_none (by simpa using hk)]
    rw [getMerkleProofImpl_eq hi, hpath, hbits, h.root hinv hcap]
    rfl

end

/-- In every run `get_record` returns the last accepted submission of a property; the index of a property
is its slot in the register of the accepted submissions; every node is that of the full tree over the
register's leaves; and, with at most `2^25` titles, the root and the served proofs are the register's. -/
theorem registry_of_submissions {tr : Trace} {s : State} (h : CanisterRun tr s) :
    (∀ p, getRecordImpl s p =
      ((submissions tr).filter fun t => t.propertyId = p).getLast?.map Title.record) ∧
    (∀ p, s.leafIndexByProperty.lookup p = (titlesOf tr).slot p) ∧
    (∀ l ≤ treeDepth, ∀ i, nodeAt s l i = fullNode nodeHash (titlesOf tr).leafAt l i) ∧
    ((titlesOf tr).size ≤ 2 ^ treeDepth → s.currentRoot = (titlesOf tr).root ∧
      ∀ p, getMerkleProofImpl s p = ((titlesOf tr).slot p).map (titlesOf tr).proof) := by
  have hinv := treeInv_reachable h
  have hreg := registers_run h
  refine ⟨fun p => ?_, hreg.slots, hreg.nodes hinv, fun hcap => ⟨hreg.root hinv hcap, hreg.proof hinv hcap⟩⟩
  rw [← Register.get_ofList]
  exact hreg.records p

theorem submissions_cons (τ : Transition State Event) (tr : Trace) :
    submissions (τ :: tr) = τ.label.submission.toList ++ submissions tr := by
  unfold submissions Run.observed
  rw [List.filterMap_cons]
  cases τ.label.submission <;> rfl

theorem enrolled_submissions : ∃ t : Title, t.record = plainRecord 0 ∧ t.leaf = plainLeaf ∧
    submissions enrolledTrace = [t] := by
  obtain ⟨t, ht, hleaf, hsub⟩ := exists_title (leafHash_plainRecord 0)
  refine ⟨t, ht, hleaf, ?_⟩
  unfold enrolledTrace
  rw [submissions_cons, submissions_cons, hsub]
  rfl

/-- A record submitted again replaces the first and keeps its slot. -/
theorem registry_of_submissions_replaced : ∃ t t' : Title, submissions replacedTrace = [t, t'] ∧
    t.record = formerRecord ∧ t'.record = plainRecord 0 ∧ getRecordImpl replacedState 0 = some t'.record ∧
    replacedState.leafIndexByProperty.lookup 0 = Register.slot (titlesOf replacedTrace) 0 ∧
    replacedState.currentRoot = (titlesOf replacedTrace).root := by
  obtain ⟨t, ht, -, hsub⟩ := exists_title leafHash_formerRecord
  obtain ⟨t', ht', -, hsub'⟩ := exists_title (leafHash_plainRecord 0)
  have hsubmissions : submissions replacedTrace = [t, t'] := by
    unfold replacedTrace
    rw [submissions_cons, submissions_cons, submissions_cons, hsub, hsub']
    rfl
  have hid : t.propertyId = 0 := congrArg Record.propertyId ht
  have hid' : t'.propertyId = 0 := congrArg Record.propertyId ht'
  obtain ⟨hget, hslots, -, hroot⟩ := registry_of_submissions replacedTrace_run
  have hcap : (titlesOf replacedTrace).size ≤ 2 ^ treeDepth := by
    rw [← (registers_run replacedTrace_run).size]
    exact replaced_capacity
  -- both submissions are of property 0
  have hfilter : [t, t'].filter (fun t => t.propertyId = 0) = [t, t'] :=
    List.filter_eq_self.2 (List.forall_mem_cons.2 ⟨decide_eq_true hid, List.forall_mem_singleton.2 (decide_eq_true hid')⟩)
  refine ⟨t, t', hsubmissions, ht, ht', ?_, hslots 0, (hroot hcap).1⟩
  rw [hget, hsubmissions, hfilter]
  rfl

/-! ## The root commits to the registry -/

/-- What the leaf of a title says: all but its property id. -/
def Title.content (t : Title) : BaseElement × UInt64 × UInt64 × UInt64 :=
  (t.commitment, t.record.encumbranceFlag, t.record.licenseStatus, t.record.licenseExpiry)

theorem Title.content_inj {t t' : Title} : t.inputs = t'.inputs ↔ t.content = t'.content := by
  simp only [inputs, content, List.cons.injEq, and_true, true_and, Prod.mk.injEq]
  constructor
  · rintro ⟨hc, he, hl, hx⟩
    exact ⟨hc, new_u64_inj he, new_u64_inj hl, new_u64_inj hx⟩
  · rintro ⟨hc, he, hl, hx⟩
    rw [hc, he, hl, hx]
    exact ⟨rfl, rfl, rfl, rfl⟩

/-- All inputs hashed in the tree of a registry. -/
def registryInputs (s : State) : Set (List BaseElement) := leafInputs s ∪ nodeInputs s

theorem Registers.mem_leafInputs {s : State} {g : Titles} (h : Registers s g) {i : ℕ} {t : Title}
    (ht : g.entries[i]? = some t) : t.inputs ∈ leafInputs s := by
  refine ⟨t.propertyId, t.record, t.commitment, ?_, t.parses, rfl⟩
  rw [h.records, Register.get_eq_some.2 ⟨List.mem_of_getElem? ht, rfl⟩, Option.map_some]

/-- Registries with the same contents at the same indices have the same leaves. -/
theorem Titles.leafAt_of_content {g g' : Titles} (h : g.entries.map Title.content = g'.entries.map Title.content) :
    g.leafAt = g'.leafAt := by
  funext i
  have hi := congrArg (fun l => l[i]?) h
  simp only [List.getElem?_map] at hi
  unfold Titles.leafAt
  cases ht : g.entries[i]? with
  | none =>
    rw [ht, Option.map_none] at hi
    rw [Option.map_eq_none_iff.1 hi.symm]
  | some t =>
    rw [ht, Option.map_some] at hi
    obtain ⟨t', ht', hc⟩ := Option.map_eq_some_iff.1 hi.symm
    rw [ht', Option.elim_some, Option.elim_some, Title.leaf, Title.leaf, Title.content_inj.2 hc]

/-- All inputs hashed in the tree of a register. -/
def Titles.hashed (g : Titles) : Set (List BaseElement) := {x | ∃ t ∈ g.entries, x = t.inputs} ∪ treeInputs g.leafAt

theorem Registers.hashed_subset {s : State} {g : Titles} (h : Registers s g) (hinv : TreeInv s) :
    g.hashed ⊆ registryInputs s := by
  refine Set.union_subset_union ?_ (treeInputs_subset (h.nodes hinv))
  rintro _ ⟨t, ht, rfl⟩
  obtain ⟨i, hi⟩ := List.getElem?_of_mem ht
  exact h.mem_leafInputs hi

/-- Two registers of at most `2^25` titles have one root exactly if they hold the same contents at the same
indices, when no leaf is zero and the hash does not collide on their inputs. -/
theorem Titles.root_eq_iff {g g' : Titles} (hcap : g.size ≤ 2 ^ treeDepth) (hcap' : g'.size ≤ 2 ^ treeDepth)
    (hinj : (g.hashed ∪ g'.hashed).InjOn Air.hash) (hne : ∀ t ∈ g.entries, t.leaf ≠ 0)
    (hne' : ∀ t ∈ g'.entries, t.leaf ≠ 0) :
    g.root = g'.root ↔ g.entries.map Title.content = g'.entries.map Title.content := by
  constructor
  · intro hroot
    have hleaves := leaves_of_root (nodeHash_injOn hinj) g.leafAt g'.leafAt treeDepth
      (treePairs_subset (Set.subset_union_right.trans Set.subset_union_left))
      (treePairs_subset (Set.subset_union_right.trans Set.subset_union_right)) hroot
    refine List.ext_getElem? fun i => ?_
    rw [List.getElem?_map, List.getElem?_map]
    by_cases hi : i < 2 ^ treeDepth
    · have hleaf := hleaves i hi
      unfold Titles.leafAt at hleaf
      cases ht : g.entries[i]? with
      | none =>
        cases ht' : g'.entries[i]? with
        | none => rfl
        | some t' =>
          rw [ht, ht', Option.elim_none, Option.elim_some] at hleaf
          exact absurd hleaf.symm (hne' t' (List.mem_of_getElem? ht'))
      | some t =>
        cases ht' : g'.entries[i]? with
        | none =>
          rw [ht, ht', Option.elim_some, Option.elim_none] at hleaf
          exact absurd hleaf (hne t (List.mem_of_getElem? ht))
        | some t' =>
          rw [ht, ht', Option.elim_some, Option.elim_some] at hleaf
          have hinputs := hinj (.inl (.inl ⟨t, List.mem_of_getElem? ht, rfl⟩))
            (.inr (.inl ⟨t', List.mem_of_getElem? ht', rfl⟩)) hleaf
          rw [Option.map_some, Option.map_some, Title.content_inj.1 hinputs]
    · rw [List.getElem?_eq_none (hcap.trans (Nat.le_of_not_lt hi)),
        List.getElem?_eq_none (hcap'.trans (Nat.le_of_not_lt hi))]
  · intro hcontent
    unfold Titles.root
    rw [Titles.leafAt_of_content hcontent]

/-- Two registries of at most `2^25` titles, none with a leaf of zero and on whose inputs the hash does not
collide, have one root exactly if they hold the same contents at the same indices. -/
theorem root_commits {tr tr' : Trace} {s s' : State} (h : CanisterRun tr s) (h' : CanisterRun tr' s')
    (hcap : (titlesOf tr).size ≤ 2 ^ treeDepth) (hcap' : (titlesOf tr').size ≤ 2 ^ treeDepth)
    (hinj : (registryInputs s ∪ registryInputs s').InjOn Air.hash)
    (hne : ∀ t ∈ (titlesOf tr).entries, t.leaf ≠ 0) (hne' : ∀ t ∈ (titlesOf tr').entries, t.leaf ≠ 0) :
    s.currentRoot = s'.currentRoot ↔
      (titlesOf tr).entries.map Title.content = (titlesOf tr').entries.map Title.content := by
  have hreg := registers_run h
  have hreg' := registers_run h'
  have hinv := treeInv_reachable h
  have hinv' := treeInv_reachable h'
  rw [hreg.root hinv hcap, hreg'.root hinv' hcap']
  apply Titles.root_eq_iff hcap hcap' _ hne hne'
  exact hinj.mono (Set.union_subset_union (hreg.hashed_subset hinv) (hreg'.hashed_subset hinv'))

/-- The inputs of a tree with one leaf. -/
theorem treeInputs_single (leaf : List ℕ) :
    treeInputs (fun i => if i = 0 then BaseElement.new (hashList leaf) else 0) ⊆
      {x | ∃ n ∈ singleInputs leaf, x = n.map BaseElement.new} := by
  rintro x ⟨l, hl, i, -, rfl⟩
  have hl : l < 25 := hl
  rw [fullNode_single, fullNode_single, if_neg (by omega : 2 * i + 1 ≠ 0), ← zeroHash_eq, singleRoot_new, zeroHash_new]
  by_cases hi : 2 * i = 0
  · rw [if_pos hi]
    exact ⟨_, List.mem_cons_of_mem _ (List.mem_append_left _ (List.mem_map.2 ⟨l, List.mem_range.2 hl, rfl⟩)),
      (node_inputs _ _).symm⟩
  · rw [if_neg hi]
    exact ⟨_, List.mem_cons_of_mem _ (List.mem_append_right _ (List.mem_map.2 ⟨l, List.mem_range.2 hl, rfl⟩)),
      (node_inputs _ _).symm⟩

/-- The inputs of the empty registry are among those of a registry with one leaf. -/
theorem registryInputs_fresh (leaf : List ℕ) :
    registryInputs freshState ⊆ {x | ∃ n ∈ singleInputs leaf, x = n.map BaseElement.new} := by
  rintro x (⟨p, r, c, hr, -⟩ | ⟨l, hl, i, -, rfl⟩)
  · cases hr
  · have hl : l < 25 := hl
    rw [nodeAt_fresh, nodeAt_fresh, initZeroHashes_getD (Nat.le_of_lt hl), zeroHash_new]
    exact ⟨_, List.mem_cons_of_mem _ (List.mem_append_right _ (List.mem_map.2 ⟨l, List.mem_range.2 hl, rfl⟩)),
      (node_inputs _ _).symm⟩

/-- The registry with one property has another root than the empty one. -/
theorem root_commits_enrolled : (enrolled 1).currentRoot ≠ freshState.currentRoot := by
  obtain ⟨t, ht, hleaf, hsubmissions⟩ := enrolled_submissions
  have htitles : (titlesOf enrolledTrace).entries = [t] := by
    unfold titlesOf
    rw [hsubmissions]
    rfl
  have hinj : (registryInputs (enrolled 1) ∪ registryInputs freshState).InjOn Air.hash := by
    refine (hash_injOn honest_injOn_values).mono (Set.union_subset ?_ ?_)
    · refine Set.subset_union_right.trans ((single_involved enrolled_singleTree (by decide) (by decide) honest_first).trans ?_)
      rintro x ⟨n, hn, rfl⟩
      exact ⟨n, List.mem_dedup.2 hn, rfl⟩
    · refine (registryInputs_fresh (singleLeaf (hashList [2, 42, 5]) 100)).trans ?_
      rintro x ⟨n, hn, rfl⟩
      exact ⟨n, List.mem_dedup.2 hn, rfl⟩
  have hne : ∀ t' ∈ (titlesOf enrolledTrace).entries, t'.leaf ≠ 0 := by
    rw [htitles, List.forall_mem_singleton, hleaf, plainLeaf_eval]
    exact honest_leaf_ne_zero
  rw [ne_eq, root_commits enrolledTrace_run Run.nil (by rw [Register.size, htitles]; norm_num) (by decide) hinj hne
    (fun _ h => by cases h), htitles]
  intro h
  cases h

end Yaqeen.Canister
