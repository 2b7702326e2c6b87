/-
What an accepted proof says about the registry: the circuit, the tree and the challenge protocol joined.
A proof accepted for a challenge shows that the registry held an eligible property when the challenge
was issued, where the hash does not collide on the inputs involved and the proven leaf is not the zero
that stands at every free index.
-/
import Yaqeen.Air.Binding
import Yaqeen.Air.Soundness
import Yaqeen.Prover.Completeness
import Yaqeen.Canister.Challenges

namespace Yaqeen.Canister

open Air FinMap Runs HashTree

/-! ## The inputs of the registry -/

/-- The inputs of the registered leaves. -/
def leafInputs (s : State) : Set (List BaseElement) :=
  {x | ∃ p r c, s.records.lookup p = some r ∧ parseFe r.ownerCommitment = .ok c ∧
    x = [BaseElement.new domainLeaf, fe registryId, c, fe r.encumbranceFlag, fe r.licenseStatus, fe r.licenseExpiry]}

/-- The inputs of the nodes of the tree. -/
def nodeInputs (s : State) : Set (List BaseElement) :=
  {x | ∃ l < treeDepth, ∃ i < 2 ^ (treeDepth - (l + 1)),
    x = [BaseElement.new domainNode, nodeAt s l (2 * i), nodeAt s l (2 * i + 1)]}

/-- The inputs a proof for a state has the hash of: those of the table and those of the registry. -/
def involvedInputs (s : State) (t : TraceTable) : Set (List BaseElement) :=
  t.absorbedInputs ∪ (leafInputs s ∪ nodeInputs s)

theorem treeInputs_subset {s : State} {leaf : ℕ → BaseElement}
    (hfull : ∀ l ≤ treeDepth, ∀ i, nodeAt s l i = fullNode nodeHash leaf l i) : treeInputs leaf ⊆ nodeInputs s := by
  rintro x ⟨l, hl, i, hi, rfl⟩
  refine ⟨l, hl, i, hi, ?_⟩
  rw [hfull l (Nat.le_of_lt hl), hfull l (Nat.le_of_lt hl)]

/-! ## Eligible properties -/

/-- A registered property without encumbrance, with a license that outlasts a time, and with the
commitment given. -/
structure Eligible (s : State) (p : UInt64) (r : Record) (currentTimestamp : UInt64) (commitment : BaseElement) :
    Prop where
  registered : s.records.lookup p = some r
  unencumbered : r.encumbranceFlag = 0
  licensed : r.licenseStatus = 1
  unexpired : currentTimestamp.toNat < r.licenseExpiry.toNat
  ownerCommitment : parseFe r.ownerCommitment = .ok commitment

/-- A nonzero leaf is that of a registered record. -/
theorem record_of_leaf {s : State} (hinv : TreeInv s) {leaf : ℕ → BaseElement} (hl : LeavesOf s leaf) {i : ℕ}
    (hne : leaf i ≠ 0) : ∃ p r, s.records.lookup p = some r ∧ leafHash r = .ok (leaf i) := by
  by_cases hi : ∃ p, s.leafIndexByProperty.lookup p = some i
  · obtain ⟨p, hp⟩ := hi
    obtain ⟨r, hr⟩ := (hinv.registered p).2 ⟨i, hp⟩
    exact ⟨p, r, hr, hl.assigned p i r hp hr⟩
  · exact absurd (hl.free i fun p hp => hi ⟨p, hp⟩) hne

theorem leafHash_eq_ok {r : Record} {x : BaseElement} (h : leafHash r = .ok x) :
    ∃ c, parseFe r.ownerCommitment = .ok c ∧ x = Air.hash [BaseElement.new domainLeaf, fe registryId, c,
      fe r.encumbranceFlag, fe r.licenseStatus, fe r.licenseExpiry] := by
  cases hc : parseFe r.ownerCommitment with
  | error e =>
    unfold leafHash at h
    rw [hc] at h
    cases h
  | ok c =>
    rw [leafHash_ok hc] at h
    exact ⟨c, rfl, (Except.ok.inj h).symm⟩

/-- A satisfying table for the root of a registry proves one of its properties eligible. -/
theorem eligible_of_satisfies {s : State} (hinv : TreeInv s)
    (hlt : ∀ p i, s.leafIndexByProperty.lookup p = some i → i < 2 ^ treeDepth) {pubInputs : PublicInputs}
    {t : TraceTable} {now : UInt64} (h : Satisfies pubInputs t) (hroot : pubInputs.merkleRoot = s.currentRoot)
    (hnow : pubInputs.currentTimestamp = fe now) (hinj : (involvedInputs s t).InjOn Air.hash)
    (hne : t.row 15 s0 ≠ 0) : ∃ p r, Eligible s p r now (t.row 8 (stateCol 2)) := by
  obtain ⟨leaf, hl, hfull⟩ := hinv.nodes
  have hroot' : pubInputs.merkleRoot = fullNode nodeHash leaf treeDepth 0 := by
    rw [hroot, hinv.root hlt, hfull treeDepth le_rfl]
  obtain ⟨i, -, hi, -⟩ := path_of_tree h hinj Set.subset_union_left
    ((treeInputs_subset hfull).trans (Set.subset_union_right.trans Set.subset_union_right)) hroot'
  obtain ⟨p, r, hr, hleaf⟩ := record_of_leaf hinv hl (hi ▸ hne)
  obtain ⟨c, hc, hx⟩ := leafHash_eq_ok hleaf
  -- the record's leaf and the table's are hashed from the same inputs
  have hinputs := hinj (.inr (.inl ⟨p, r, c, hr, hc, rfl⟩)) (.inl (leaf_absorbed h))
    (hx.symm.trans (hi.symm.trans (leaf_digest h)))
  simp only [List.cons.injEq, and_true, true_and] at hinputs
  obtain ⟨-, hcommit, hflag, hstatus, hexpiry⟩ := hinputs
  obtain ⟨n, hn, hauxD⟩ := expiry_range h
  have hexceeds : fe r.licenseExpiry = fe now + 1 + BaseElement.new n := by rw [hexpiry, hauxD, hnow]
  refine ⟨p, r, hr, ?_, ?_, ?_, ?_⟩
  · exact new_u64_inj (hflag.trans Nat.cast_zero.symm)
  · exact new_u64_inj (hstatus.trans Nat.cast_one.symm)
  · exact (inRange_of_eq hn hexceeds).1
  · rw [hc, hcommit, leaf_absorbs_digest h]

/-- With a sound verifier, at most `2^25` properties and fewer than `2^64` challenges, every accepted proof is
one for the root of the state in which its challenge was issued, by the one request that returned its
id. Some table satisfies the circuit for its public inputs, and every such table on whose inputs and
the registry's the hash does not collide, and whose leaf is not zero, proves a property of that state
eligible at the time of the challenge. -/
theorem registry_facts_sound {tr : Trace} {s : State} (h : CanisterRun tr s)
    (hcap : s.leafIndexByProperty.keys.card ≤ 2 ^ treeDepth) (hissued : issuedCount tr < 2 ^ 64)
    (hsound : ∀ (a : Acceptance tr) (pubInputs : PublicInputs),
      a.winterfell a.proofBytes pubInputs = .accepted → ∃ t, Satisfies pubInputs t) (a : Acceptance tr) :
    ∃ (r : Request tr) (pubInputs : PublicInputs), r.index < a.index ∧ r.view.challengeId = a.challengeId ∧
      (∀ r' : Request tr, r'.view.challengeId = a.challengeId → r'.index = r.index) ∧
      airPubInputs a.publicInputs = .ok pubInputs ∧ (∃ t, Satisfies pubInputs t) ∧
      ∀ t, Satisfies pubInputs t → (involvedInputs r.transition.pre t).InjOn Air.hash → t.row 15 s0 ≠ 0 →
        ∃ p record, Eligible r.transition.pre p record r.view.currentTimestamp (t.row 8 (stateCol 2)) := by
  obtain ⟨r, v, hlt, -, hid, -, -, hinputs, hw⟩ := a.inputs h
  obtain ⟨hbefore, hst⟩ := h.before r.occurs
  -- indices are never taken back, so the capacity at the end bounds those at the request
  have hafter := (Run.nil.snoc hst).append (h.after r.occurs)
  have hindex : ∀ p i, r.transition.pre.leafIndexByProperty.lookup p = some i → i < 2 ^ treeDepth := by
    intro p i hp
    exact lt_of_lt_of_le ((treeInv_reachable h).index_lt p i (index_run hbefore hafter hp)) hcap
  have hnow : BaseElement.new (r.now.ns / 1000000000).toNat = fe r.view.currentTimestamp := by
    rw [r.view_eq h, ← timestamp_toNat r.now]
    rfl
  refine ⟨r, _, hlt, hid.symm, fun r' hid' => Request.index_inj h hissued (hid'.trans hid), hinputs, hsound a _ hw, ?_⟩
  intro t ht hinj hne
  exact eligible_of_satisfies (treeInv_reachable hbefore) hindex ht rfl hnow hinj hne

/-! ## Registries with a single leaf -/

/-- Residues of the roots of empty trees, and of trees with one leaf. -/
def zeroNat : ℕ → ℕ
  | 0 => 0
  | l + 1 => hashList [4, zeroNat l, zeroNat l]

def singleNat (x : ℕ) : ℕ → ℕ
  | 0 => x
  | l + 1 => hashList [4, singleNat x l, zeroNat l]

theorem zeroHash_new : ∀ l, zeroHash l = BaseElement.new (zeroNat l)
  | 0 => Nat.cast_zero.symm
  | l + 1 => by rw [zeroHash, zeroHash_new l, nodeHash_eval, zeroNat]

theorem singleRoot_new (x : ℕ) : ∀ l, singleRoot nodeHash (BaseElement.new x) 0 l = BaseElement.new (singleNat x l)
  | 0 => rfl
  | l + 1 => by rw [singleRoot, singleRoot_new x l, ← zeroHash_eq, zeroHash_new, nodeHash_eval, singleNat]

/-- The tree holds the hash of `leaf` at index 0, and zero elsewhere; the owner has made no call. -/
structure SingleTree (s : State) (leaf : List ℕ) : Prop where
  nodes : ∀ l ≤ treeDepth, ∀ i, nodeAt s l i =
    if i = 0 then singleRoot nodeHash (BaseElement.new (hashList leaf)) 0 l else zeroHash l
  root : s.currentRoot = nodeAt s treeDepth 0
  leaves : ∀ x ∈ leafInputs s, x = leaf.map BaseElement.new
  quiet : Quiet s
  nonce : s.nextNonce = 0

/-- All inputs hashed in such a tree. -/
def singleInputs (leaf : List ℕ) : List (List ℕ) :=
  leaf :: ((List.range 25).map (fun l => [4, singleNat (hashList leaf) l, zeroNat l]) ++
    (List.range 25).map fun l => [4, zeroNat l, zeroNat l])

/-- The table of a prover with secret 42 for property 5 at index 0 of an otherwise empty tree, whose first
job starts from any lanes. -/
def singleWitness (expiry : UInt64) : Prover.Witness where
  registryId := fe 1
  purpose := fe 1
  requestNonce := fe 0
  currentTimestamp := 0
  ownerSecret := fe 42
  propertyId := fe 5
  licenseExpiry := expiry
  merkleSiblings := (List.range 25).map zeroHash
  merkleBits := List.replicate 25 false

def singleData (first : Lanes BaseElement) (expiry : UInt64) : JobData :=
  { Prover.witnessData (singleWitness expiry) with first := first }

def singleTable (first : Lanes BaseElement) (expiry : UInt64) : TraceTable :=
  (singleData first expiry).table (Prover.rangeBits (singleWitness expiry)) 32

section

variable {s : State} {first : Lanes BaseElement} {expiry : UInt64}

theorem single_satisfies (first : Lanes BaseElement) (h0 : 0 < expiry) (hle : expiry.toNat ≤ 2 ^ 32) :
    Satisfies ((singleData first expiry).publicInputs (fe 0)) (singleTable first expiry) := by
  have hf := Prover.witness_fits (singleWitness expiry) h0 (by simpa [singleWitness] using hle)
  exact JobData.satisfies_of_fits ⟨hf.unencumbered, hf.licensed, hf.direction, hf.bits, hf.sum⟩

theorem single_merkleStep {level : ℕ} (hl : level < 25) :
    (singleTable first expiry).merkleStep level = (zeroHash level, false) := by
  have haux : (singleData first expiry).aux (2 + level) = _ := Prover.auxOf_merkle (singleWitness expiry) hl
  have hsib : (singleWitness expiry).merkleSiblings.getD level 0 = zeroHash level := by
    show ((List.range 25).map zeroHash).getD level 0 = _
    rw [List.getD_eq_getElem?_getD, List.getElem?_map, List.getElem?_range hl]
    rfl
  have hbit : (singleWitness expiry).merkleBits.getD level false = false := by
    show (List.replicate 25 false).getD level false = false
    rw [List.getD_eq_getElem?_getD, List.getElem?_replicate_of_lt hl]
    rfl
  rw [hsib, hbit] at haux
  have hA := JobData.row_aux (singleData first expiry) (Prover.rangeBits (singleWitness expiry)) (2 + level) (by omega) 0
  have hB := JobData.row_aux (singleData first expiry) (Prover.rangeBits (singleWitness expiry)) (2 + level) (by omega) 1
  rw [haux] at hA hB
  unfold TraceTable.merkleStep
  rw [show jobStartRow (jobMerkleFirst + level) = 8 * (2 + level) from Nat.mul_comm _ _]
  have hB : (singleTable first expiry).row (8 * (2 + level)) auxB = 0 := hB
  refine Prod.ext hA (decide_eq_false ?_)
  rw [hB]
  exact zero_ne_one

/-- The leaf the table hashes when its first job ends in `c`. -/
def singleLeaf (c : ℕ) (expiry : UInt64) : List ℕ := [1, 1, c, 0, 1, expiry.toNat]

theorem single_leaf {c : ℕ} (hfirst : runRounds 7 first 0 = BaseElement.new c) :
    [BaseElement.new domainLeaf, fe 1, (singleTable first expiry).row 7 s0, 0, 1, (singleTable first expiry).row 8 auxD] =
      (singleLeaf c expiry).map BaseElement.new := by
  have hc : (singleTable first expiry).row 7 s0 = BaseElement.new c :=
    (JobData.row_digest (singleData first expiry) _ 0 (by omega)).trans hfirst
  have hD : (singleTable first expiry).row 8 auxD = BaseElement.new expiry.toNat :=
    JobData.row_aux (singleData first expiry) _ 1 (by omega) 3
  have h0 : BaseElement.new 0 = 0 := Nat.cast_zero
  have h1 : BaseElement.new 1 = 1 := Nat.cast_one
  rw [hc, hD]
  show [BaseElement.new 1, BaseElement.new 1, _, _, _, _] =
    [BaseElement.new 1, BaseElement.new 1, _, BaseElement.new 0, BaseElement.new 1, _]
  rw [h0, h1]

theorem single_digest {c : ℕ} (h0 : 0 < expiry) (hle : expiry.toNat ≤ 2 ^ 32)
    (hfirst : runRounds 7 first 0 = BaseElement.new c) :
    (singleTable first expiry).row 15 s0 = BaseElement.new (hashList (singleLeaf c expiry)) := by
  have hd := leaf_digest (single_satisfies first h0 hle)
  have hreg : ((singleData first expiry).publicInputs (fe 0)).registryId = fe 1 := rfl
  rw [hd, hreg, single_leaf hfirst, hash_eval]

theorem single_fold (first : Lanes BaseElement) (h0 : 0 < expiry) (hle : expiry.toNat ≤ 2 ^ 32) {n : ℕ} (hn : n ≤ 25) :
    (singleTable first expiry).row (8 * (1 + n) + 7) s0 =
      singleRoot nodeHash ((singleTable first expiry).row 15 s0) 0 n := by
  rw [merkle_fold (single_satisfies first h0 hle) n hn, ← foldPath_single]
  refine congrArg _ (List.map_congr_left fun level hl => ?_)
  rw [single_merkleStep (lt_of_lt_of_le (List.mem_range.1 hl) hn), zeroHash_eq]

/-- The table is one for the root of the registry. -/
theorem single_statement {c : ℕ} (hs : SingleTree s (singleLeaf c expiry)) (h0 : 0 < expiry)
    (hle : expiry.toNat ≤ 2 ^ 32) (hfirst : runRounds 7 first 0 = BaseElement.new c) :
    Satisfies (sampleStatement s ((singleData first expiry).digest 27)) (singleTable first expiry) := by
  have hroot : (singleData first expiry).digest 26 = s.currentRoot := by
    have hdigest := JobData.row_digest (singleData first expiry) (Prover.rangeBits (singleWitness expiry)) 26 (by omega)
    have hfold := single_fold first h0 hle (le_refl 25)
    rw [← hdigest, hs.root, hs.nodes treeDepth le_rfl, if_pos rfl, ← single_digest h0 hle hfirst]
    exact hfold
  have hsat := single_satisfies first h0 hle
  have heq : (singleData first expiry).publicInputs (fe 0) =
      sampleStatement s ((singleData first expiry).digest 27) := by
    unfold JobData.publicInputs sampleStatement Exchange.statement
    rw [hroot, hs.nonce]
    rfl
  rwa [heq] at hsat

theorem node_inputs (x y : ℕ) :
    [4, x, y].map BaseElement.new = [BaseElement.new domainNode, BaseElement.new x, BaseElement.new y] := rfl

/-- All inputs involved are those of the tree. -/
theorem single_involved {c : ℕ} (hs : SingleTree s (singleLeaf c expiry)) (h0 : 0 < expiry)
    (hle : expiry.toNat ≤ 2 ^ 32) (hfirst : runRounds 7 first 0 = BaseElement.new c) :
    involvedInputs s (singleTable first expiry) ⊆
      {x | ∃ n ∈ singleInputs (singleLeaf c expiry), x = n.map BaseElement.new} := by
  have hpath (l : ℕ) (hl : l < 25) : [4, singleNat (hashList (singleLeaf c expiry)) l, zeroNat l] ∈
      singleInputs (singleLeaf c expiry) :=
    List.mem_cons_of_mem _ (List.mem_append_left _ (List.mem_map.2 ⟨l, List.mem_range.2 hl, rfl⟩))
  have hempty (l : ℕ) (hl : l < 25) : [4, zeroNat l, zeroNat l] ∈ singleInputs (singleLeaf c expiry) :=
    List.mem_cons_of_mem _ (List.mem_append_right _ (List.mem_map.2 ⟨l, List.mem_range.2 hl, rfl⟩))
  rintro x ((rfl | ⟨job, hj, hj', rfl⟩) | hx | ⟨l, hl, i, -, rfl⟩)
  · refine ⟨_, List.mem_cons_self, ?_⟩
    rw [show jobStartRow jobLeaf = 8 from rfl, leaf_lanes (single_satisfies first h0 hle), absorbed_six]
    exact single_leaf hfirst
  · obtain ⟨l, rfl⟩ := Nat.exists_eq_add_of_le hj
    have hl : l < 25 := by norm_num at hj'; omega
    have hlanes := merkle_lanes (single_satisfies first h0 hle) hl
    rw [single_merkleStep hl, single_fold first h0 hle (Nat.le_of_lt hl), single_digest h0 hle hfirst,
      singleRoot_new] at hlanes
    simp only [Bool.false_eq_true, if_false] at hlanes
    refine ⟨_, hpath l hl, ?_⟩
    rw [show jobStartRow (jobMerkleFirst + l) = 8 * (2 + l) from Nat.mul_comm _ _, hlanes, absorbed_three,
      zeroHash_new, node_inputs]
  · exact ⟨_, List.mem_cons_self, hs.leaves x hx⟩
  · have hl : l < 25 := hl
    have hright : nodeAt s l (2 * i + 1) = zeroHash l := by rw [hs.nodes l (Nat.le_of_lt hl), if_neg (by omega)]
    rw [hright, hs.nodes l (Nat.le_of_lt hl)]
    by_cases hi : 2 * i = 0
    · rw [if_pos hi, singleRoot_new, zeroHash_new]
      exact ⟨_, hpath l hl, (node_inputs _ _).symm⟩
    · rw [if_neg hi, zeroHash_new]
      exact ⟨_, hempty l hl, (node_inputs _ _).symm⟩

/-- A verifier that accepts the statement of a satisfying table only is sound. -/
theorem sample_sound {tr : Trace} (hno : ∀ τ ∈ tr, ∀ w caller now id proofBytes publicInputs,
      ¬ Verified τ.label w caller now id proofBytes publicInputs) {v : BaseElement} {t : TraceTable}
    (ht : Satisfies (sampleStatement s v) t) (a : Acceptance (tr ++ sampleTrace s v)) (pubInputs : PublicInputs)
    (hw : a.winterfell a.proofBytes pubInputs = .accepted) : ∃ t, Satisfies pubInputs t := by
  obtain ⟨ok, hlabel⟩ := a.verified
  have hmem := List.mem_of_getElem? a.occurs
  rcases List.mem_append.1 hmem with hτ | hτ
  · exact absurd a.verified (hno _ hτ _ _ _ _ _ _)
  · rcases List.mem_cons.1 hτ with hτ | hτ
    · rw [hτ] at hlabel
      injection hlabel with _ _ _ hcall
      cases hcall
    · rw [List.mem_singleton.1 hτ] at hlabel
      injection hlabel with hverifier
      rw [← hverifier] at hw
      unfold accepting at hw
      split at hw
      · rename_i heq
        exact ⟨t, heq ▸ ht⟩
      · cases hw

theorem single_injOn {c : ℕ} (hs : SingleTree s (singleLeaf c expiry)) (h0 : 0 < expiry)
    (hle : expiry.toNat ≤ 2 ^ 32) (hfirst : runRounds 7 first 0 = BaseElement.new c)
    (hnodup : ((singleInputs (singleLeaf c expiry)).dedup.map fun n => hashList n % modulus).Nodup) :
    (involvedInputs s (singleTable first expiry)).InjOn Air.hash := by
  refine (hash_injOn hnodup).mono ((single_involved hs h0 hle hfirst).trans ?_)
  rintro x ⟨n, hn, rfl⟩
  exact ⟨n, List.mem_dedup.2 hn, rfl⟩

end

/-! ## An honest proof -/

/-- The registrar becomes the admin and submits one property, with commitment to secret 42. -/
def enrolledTrace : Trace :=
  [⟨freshState, .call rejectAll registrar timeZero (.bootstrapAdmin true registrar) (.done (.ok ())), enrolled 0⟩,
    ⟨enrolled 0, .call rejectAll registrar timeZero (.submitRecord (plainRecord 0))
      (.root (.ok (feToString (enrolled 1).currentRoot))), enrolled 1⟩]

theorem enrolledTrace_run : CanisterRun enrolledTrace (enrolled 1) :=
  (Run.nil.snoc (.call rejectAll registrar timeZero (.bootstrapAdmin true registrar))).snoc (enrolled_step 0)

theorem enrolledTrace_time : ∀ τ ∈ enrolledTrace, τ.label.time = 0 :=
  List.forall_mem_cons.2 ⟨rfl, List.forall_mem_singleton.2 rfl⟩

/-- The owner's exchange with the registry of one property takes no time. -/
theorem enrolled_sample_time (v : BaseElement) : ∀ τ ∈ enrolledTrace ++ sampleTrace (enrolled 1) v, τ.label.time = 0 :=
  List.forall_mem_append.2 ⟨enrolledTrace_time, List.forall_mem_cons.2 ⟨rfl, List.forall_mem_singleton.2 rfl⟩⟩

theorem plainCommitment_eval : plainCommitment = BaseElement.new (hashList [2, 42, 5]) := hash_eval [2, 42, 5]

/-- The inputs of the plain leaf. -/
theorem plainInputs_eval : [BaseElement.new domainLeaf, fe registryId, plainCommitment, fe 0, fe 1, fe 100] =
    (singleLeaf (hashList [2, 42, 5]) 100).map BaseElement.new := by
  rw [plainCommitment_eval]
  rfl

theorem plainLeaf_eval : plainLeaf = BaseElement.new (hashList (singleLeaf (hashList [2, 42, 5]) 100)) := by
  rw [← hash_eval, ← plainInputs_eval]
  rfl

theorem enrolled_records {p : UInt64} {r : Record} (h : (enrolled 1).records.lookup p = some r) : r = plainRecord 0 := by
  rw [enrolled, submit_records, lookup_insert] at h
  split at h
  · exact (Option.some.inj h).symm
  · cases h

theorem enrolled_quiet : Quiet (enrolled 1) ∧ (enrolled 1).nextNonce = 0 := by
  have hquiet : Quiet (enrolled 1) :=
    ⟨by rw [enrolled, submit_lastChallengeCallAt]; rfl, by rw [enrolled, submit_lastVerifyCallAt]; rfl,
      by rw [enrolled, submit_nullifiers]; rfl⟩
  refine ⟨hquiet, ?_⟩
  rw [enrolled, submit_nextNonce]
  rfl

/-- A reachable registry of one property, with the plain record. -/
theorem plain_singleTree {tr : Trace} {s : State} (h : CanisterRun tr s)
    (hindex : ∀ p, s.leafIndexByProperty.lookup p = if p = 0 then some 0 else none)
    (hrecords : ∀ p r, s.records.lookup p = some r → r = plainRecord 0) (hq : Quiet s) (hn : s.nextNonce = 0) :
    SingleTree s (singleLeaf (hashList [2, 42, 5]) 100) := by
  have hinv := treeInv_reachable h
  have hzero : s.leafIndexByProperty.lookup 0 = some 0 := (hindex 0).trans (if_pos rfl)
  have hlt : ∀ p i, s.leafIndexByProperty.lookup p = some i → i = 0 := by
    intro p i hp
    rw [hindex] at hp
    split_ifs at hp
    exact (Option.some.inj hp).symm
  obtain ⟨leaf, hl, hfull⟩ := hinv.nodes
  have hfirst : leaf 0 = plainLeaf := by
    obtain ⟨r, hr⟩ := (hinv.registered 0).2 ⟨0, hzero⟩
    have := hl.assigned 0 0 r hzero hr
    rw [hrecords 0 r hr, leafHash_plainRecord] at this
    exact (Except.ok.inj this).symm
  have hleaf : leaf = fun j => if j = 0 then plainLeaf else 0 := by
    funext j
    by_cases hj : j = 0
    · rw [if_pos hj, hj, hfirst]
    · rw [if_neg hj, hl.free j fun p hp => hj (hlt p j hp)]
  refine ⟨fun l hl i => ?_, hinv.root fun p i hp => ?_, ?_, hq, hn⟩
  · rw [hfull l hl, hleaf, fullNode_single, plainLeaf_eval, zeroHash_eq]
  · rw [hlt p i hp]
    norm_num
  · rintro x ⟨p, r, c, hr, hc, rfl⟩
    rw [hrecords p r hr] at hc ⊢
    have hcommit : c = plainCommitment := (Except.ok.inj ((parseFe_feToString plainCommitment).symm.trans hc)).symm
    rw [hcommit]
    exact plainInputs_eval

theorem enrolled_singleTree : SingleTree (enrolled 1) (singleLeaf (hashList [2, 42, 5]) 100) := by
  refine plain_singleTree enrolledTrace_run (fun p => ?_) (fun p r hr => enrolled_records hr) enrolled_quiet.1 enrolled_quiet.2
  rw [(enrolled_index 1 (by norm_num)).2.2]
  by_cases hp : p = 0
  · rw [if_pos hp, hp]
    rfl
  · have hne : p.toNat ≠ 0 := fun h => hp (UInt64.toNat_inj.1 h)
    rw [if_neg hp, if_neg (by omega)]

/-! ## A record that is replaced -/

/-- The commitment to secret 43. -/
def formerCommitment : BaseElement :=
  Air.hash [BaseElement.new domainOwnerCommitment, BaseElement.new 43, BaseElement.new 5]

/-- Property 0 with its former commitment. -/
def formerRecord : Record := ⟨0, feToString formerCommitment, 0, 1, 100⟩

def formerLeaf : BaseElement :=
  Air.hash [BaseElement.new domainLeaf, fe registryId, formerCommitment, fe 0, fe 1, fe 100]

theorem leafHash_formerRecord : leafHash formerRecord = .ok formerLeaf :=
  leafHash_ok (r := formerRecord) (c := formerCommitment) (parseFe_feToString formerCommitment)

def formerState : State := submit (enrolled 0) formerRecord formerLeaf

def replacedState : State := submit formerState (plainRecord 0) plainLeaf

/-- The registrar becomes the admin, submits the former record, and submits the plain one in its place. -/
def replacedTrace : Trace :=
  [⟨freshState, .call rejectAll registrar timeZero (.bootstrapAdmin true registrar) (.done (.ok ())), enrolled 0⟩,
    ⟨enrolled 0, .call rejectAll registrar timeZero (.submitRecord formerRecord)
      (.root (.ok (feToString formerState.currentRoot))), formerState⟩,
    ⟨formerState, .call rejectAll registrar timeZero (.submitRecord (plainRecord 0))
      (.root (.ok (feToString replacedState.currentRoot))), replacedState⟩]

theorem formerState_admin : isAdmin formerState registrar = true := by
  unfold isAdmin formerState
  rw [submit_admins]
  exact enrolled_admin 0

theorem replacedTrace_run : CanisterRun replacedTrace replacedState :=
  ((Run.nil.snoc (.call rejectAll registrar timeZero (.bootstrapAdmin true registrar))).snoc
    (registrar_submits (enrolled_admin 0) leafHash_formerRecord)).snoc
    (registrar_submits formerState_admin (leafHash_plainRecord 0))

theorem replacedTrace_time : ∀ τ ∈ replacedTrace, τ.label.time = 0 :=
  List.forall_mem_cons.2 ⟨rfl, List.forall_mem_cons.2 ⟨rfl, List.forall_mem_singleton.2 rfl⟩⟩

/-- Both records have index 0. -/
theorem replaced_index (p : UInt64) : replacedState.leafIndexByProperty.lookup p = if p = 0 then some 0 else none := by
  have hnone (q : UInt64) : (enrolled 0).leafIndexByProperty.lookup q = none := Finmap.lookup_empty q
  have hformer (q : UInt64) : formerState.leafIndexByProperty.lookup q = if q = 0 then some 0 else none := by
    have hassign : (assignIndex (enrolled 0) 0).1 = 0 := by
      obtain ⟨i, hi, -⟩ | ⟨-, h⟩ := assignIndex_cases (enrolled 0) 0
      · rw [hnone] at hi
        cases hi
      · rw [h]
        rfl
    have h := submit_lookup (enrolled 0) formerRecord formerLeaf q
    rwa [show formerRecord.propertyId = 0 from rfl, hassign, hnone] at h
  have h := submit_lookup formerState (plainRecord 0) plainLeaf p
  rw [show (plainRecord 0).propertyId = 0 from rfl, assignIndex_of_some ((hformer 0).trans (if_pos rfl)), hformer] at h
  refine h.trans ?_
  split_ifs <;> rfl

theorem replaced_records {p : UInt64} {r : Record} (h : replacedState.records.lookup p = some r) : r = plainRecord 0 := by
  unfold replacedState formerState at h
  rw [submit_records, submit_records, lookup_insert, lookup_insert] at h
  have hid : (plainRecord 0).propertyId = formerRecord.propertyId := rfl
  rw [hid] at h
  split_ifs at h
  · exact (Option.some.inj h).symm
  · cases h

theorem replaced_capacity : replacedState.leafIndexByProperty.keys.card ≤ 2 ^ treeDepth := by
  have hzero : ∀ p ∈ replacedState.leafIndexByProperty.keys, p = 0 := by
    intro p hp
    obtain ⟨i, hi⟩ := (mem_keys_iff _ _).1 hp
    rw [replaced_index] at hi
    split_ifs at hi with h
    exact h
  refine (Finset.card_le_one.2 fun p hp q hq => ?_).trans Nat.one_le_two_pow
  rw [hzero p hp, hzero q hq]

theorem replaced_quiet : Quiet replacedState := by
  unfold replacedState formerState
  constructor
  · rw [submit_lastChallengeCallAt, submit_lastChallengeCallAt]
    rfl
  · rw [submit_lastVerifyCallAt, submit_lastVerifyCallAt]
    rfl
  · rw [submit_nullifiers, submit_nullifiers]
    rfl

theorem replaced_singleTree : SingleTree replacedState (singleLeaf (hashList [2, 42, 5]) 100) := by
  refine plain_singleTree replacedTrace_run replaced_index (fun p r hr => replaced_records hr) replaced_quiet ?_
  unfold replacedState formerState
  rw [submit_nextNonce, submit_nextNonce]
  rfl

/-! ## The honest proof -/

theorem honest_injOn_values :
    ((singleInputs (singleLeaf (hashList [2, 42, 5]) 100)).dedup.map fun n => hashList n % modulus).Nodup := by
  decide +kernel

theorem honest_leaf_ne_zero : BaseElement.new (hashList (singleLeaf (hashList [2, 42, 5]) 100)) ≠ 0 := by
  intro h
  have hne : hashList (singleLeaf (hashList [2, 42, 5]) 100) % modulus ≠ 0 % modulus := by decide +kernel
  exact hne ((ZMod.natCast_eq_natCast_iff' _ _ _).1 (h.trans Nat.cast_zero.symm))

/-- The owner job of the honest proof starts from its own inputs. -/
def honestFirst : Lanes BaseElement :=
  absorb [BaseElement.new domainOwnerCommitment, BaseElement.new 42, BaseElement.new 5]

def honestNullifier : BaseElement := (singleData honestFirst 100).digest 27

theorem honest_first : runRounds 7 honestFirst 0 = BaseElement.new (hashList [2, 42, 5]) := by
  unfold honestFirst
  rw [← hash_def]
  exact plainCommitment_eval

theorem enrolledTrace_unverified : ∀ τ ∈ enrolledTrace, ∀ w caller now id proofBytes publicInputs,
    ¬ Verified τ.label w caller now id proofBytes publicInputs := by
  refine List.forall_mem_cons.2 ⟨?_, List.forall_mem_singleton.2 ?_⟩
  · rintro _ _ _ _ _ _ ⟨ok, h⟩
    cases h
  · rintro _ _ _ _ _ _ ⟨ok, h⟩
    cases h

/-- The owner's answer to a challenge of the registry with one property shows that property. -/
theorem registry_facts_enrolled : ∃ p record, Eligible (enrolled 1) p record 0 plainCommitment := by
  have hle : (100 : UInt64).toNat ≤ 2 ^ 32 := by decide
  have hs := enrolled_singleTree
  have ht := single_statement hs (by decide) hle honest_first
  have hrun := enrolledTrace_run.append (sample_run (v := honestNullifier) hs.quiet)
  have hcap : (verifyTransition (accepting (sampleStatement (enrolled 1) honestNullifier)) (enrolled 1)
      honestNullifier).post.leafIndexByProperty.keys.card ≤ 2 ^ treeDepth := by
    show (enrolled 1).leafIndexByProperty.keys.card ≤ 2 ^ treeDepth
    rw [(enrolled_index 1 (by norm_num)).2.1]
    norm_num
  have hissued : issuedCount (enrolledTrace ++ sampleTrace (enrolled 1) honestNullifier) < 2 ^ 64 :=
    Nat.one_lt_two_pow (by norm_num)
  obtain ⟨r, pubInputs, -, -, hunique, hinputs, -, hfacts⟩ := registry_facts_sound hrun hcap hissued
    (sample_sound enrolledTrace_unverified ht) (sampleAcceptance enrolledTrace (enrolled 1) honestNullifier)
  have hindex := hunique (sampleRequest enrolledTrace (enrolled 1) honestNullifier) rfl
  have hpub : pubInputs = sampleStatement (enrolled 1) honestNullifier :=
    Except.ok.inj (hinputs.symm.trans (airPubInputs_of_passes (sample_passes hs.quiet honestNullifier)))
  rw [← Request.transition_of_index hindex, ← Request.view_of_index hindex, hpub] at hfacts
  have hne : (singleTable honestFirst 100).row 15 s0 ≠ 0 := by
    rw [single_digest (by decide) hle honest_first]
    exact honest_leaf_ne_zero
  have hcommit : (singleTable honestFirst 100).row 8 (stateCol 2) = plainCommitment := by
    rw [leaf_absorbs_digest ht, plainCommitment_eval, ← honest_first]
    exact JobData.row_digest _ _ 0 (by omega)
  obtain ⟨p, record, helig⟩ := hfacts _ ht (single_injOn hs (by decide) hle honest_first honest_injOn_values) hne
  rw [hcommit] at helig
  exact ⟨p, record, helig⟩

/-! ## A forged proof -/

/-- A commitment for which the leaf with license expiry 2 hashes to zero, the value of a free leaf. -/
def forgedCommitment : ℕ := 178375911919274265417103096848480213917

/-- Lanes that the seven rounds of the first job take to it. -/
def forgedFirst : List ℕ :=
  [134044311536865401614648128428239409445, 67584980873999029904890326057416394108,
    213594391840931308634706179213724417757, 159253014945269717831535707838990996970,
    88482277223592984757413438830573284931, 98333560538493652605240477997648452534,
    100940831922383997613278316797964868389, 11419793007392820612185349012584701092]

theorem forged_first : runRounds 7 (lanesOf forgedFirst) 0 = BaseElement.new forgedCommitment := by
  have h : (roundsList 7 forgedFirst).getD 0 0 = forgedCommitment := by decide +kernel
  rw [runRounds_lanesOf forgedFirst 7 (by omega), ← h]
  rfl

theorem forged_leaf : hashList (singleLeaf forgedCommitment 2) = 0 := by decide +kernel

theorem forged_injOn_values :
    ((singleInputs (singleLeaf forgedCommitment 2)).dedup.map fun n => hashList n % modulus).Nodup := by
  decide +kernel

theorem fresh_singleTree : SingleTree freshState (singleLeaf forgedCommitment 2) where
  nodes l hl i := by
    have h0 : BaseElement.new 0 = 0 := Nat.cast_zero
    rw [nodeAt_fresh, initZeroHashes_getD hl, forged_leaf, h0, singleRoot_self, ← zeroHash_eq, ite_self]
  root := treeInv_fresh.root fun p i hp => by cases hp
  leaves := by
    rintro x ⟨p, r, c, hr, -⟩
    cases hr
  quiet := quiet_fresh
  nonce := rfl

def forgedNullifier : BaseElement := (singleData (lanesOf forgedFirst) 2).digest 27

/-- A proof about the empty registry is accepted, by a verifier that accepts the statement of a satisfying
table only and with a hash that does not collide on any input involved. -/
theorem forged_facts_accepted :
    let tr := sampleTrace freshState forgedNullifier
    let s := (verifyTransition (accepting (sampleStatement freshState forgedNullifier)) freshState forgedNullifier).post
    let a := sampleAcceptance [] freshState forgedNullifier
    let r := sampleRequest [] freshState forgedNullifier
    let t := singleTable (lanesOf forgedFirst) 2
    CanisterRun tr s ∧ s.leafIndexByProperty.keys.card ≤ 2 ^ treeDepth ∧ issuedCount tr < 2 ^ 64 ∧
    (∀ (a : Acceptance tr) (pubInputs : PublicInputs),
      a.winterfell a.proofBytes pubInputs = .accepted → ∃ t, Satisfies pubInputs t) ∧
    r.view.challengeId = a.challengeId ∧
    airPubInputs a.publicInputs = .ok (sampleStatement freshState forgedNullifier) ∧
    Satisfies (sampleStatement freshState forgedNullifier) t ∧ (involvedInputs r.transition.pre t).InjOn Air.hash ∧
    ∀ p record, ¬ Eligible r.transition.pre p record r.view.currentTimestamp (t.row 8 (stateCol 2)) := by
  intro tr s a r t
  have hle : (2 : UInt64).toNat ≤ 2 ^ 32 := by decide
  have ht := single_statement fresh_singleTree (by decide) hle forged_first
  have hno : ∀ τ ∈ ([] : Trace), ∀ w caller now id proofBytes publicInputs,
      ¬ Verified τ.label w caller now id proofBytes publicInputs := fun _ hτ => by cases hτ
  refine ⟨sample_run quiet_fresh, ?_, Nat.one_lt_two_pow (by norm_num), sample_sound hno ht, rfl,
    airPubInputs_of_passes (sample_passes quiet_fresh forgedNullifier), ht,
    single_injOn fresh_singleTree (by decide) hle forged_first forged_injOn_values, fun p record h => ?_⟩
  · show (∅ : HashMap UInt64 ℕ).keys.card ≤ _
    rw [Finmap.keys_empty, Finset.card_empty]
    norm_num
  · have hr : (∅ : HashMap UInt64 Record).lookup p = some record := h.registered
    cases hr

end Yaqeen.Canister
