/-
Snapshots as a data format. Restoring accepts every snapshot whose field elements are texts of field elements,
whatever else it holds; of several entries with one key it takes the last; and what it restores is a
fixed point: its own snapshot, in any order of iteration, restores it again.
-/
import Yaqeen.Canister.Upgrade

namespace Yaqeen.Canister

open Air FinMap

/-! ## Lists of texts -/

section

variable {α β : Type} {f : α → Except String β} {g : α → β}

/-- Each element is read by itself, and one that cannot be read fails the list. -/
theorem mapM_eq_ok (hg : ∀ a b, f a = .ok b → b = g a) : ∀ {l : List α} {bs : List β},
    l.mapM f = .ok bs ↔ (∀ a ∈ l, ∃ b, f a = .ok b) ∧ bs = l.map g
  | [], bs => by
    constructor
    · rintro ⟨⟩
      exact ⟨fun a ha => (by cases ha), rfl⟩
    · rintro ⟨-, rfl⟩
      rfl
  | a :: l, bs => by
    rw [List.mapM_cons]
    constructor
    · intro h
      cases ha : f a with
      | error e =>
        rw [ha] at h
        cases h
      | ok b =>
        rw [ha] at h
        cases hl : l.mapM f with
        | error e =>
          rw [hl] at h
          cases h
        | ok bs' =>
          rw [hl] at h
          cases h
          obtain ⟨hall, rfl⟩ := (mapM_eq_ok hg).1 hl
          exact ⟨List.forall_mem_cons.2 ⟨⟨b, ha⟩, hall⟩, by rw [hg a b ha, List.map_cons]⟩
    · rintro ⟨hall, rfl⟩
      obtain ⟨⟨b, ha⟩, hall⟩ := List.forall_mem_cons.1 hall
      rw [ha, (mapM_eq_ok hg).2 ⟨hall, rfl⟩, hg a b ha]
      rfl

end

/-! ## What a snapshot restores -/

/-- The value of a text, zero if it is none. -/
def fieldOf (text : String) : BaseElement := (parseFe text).toOption.getD 0

theorem fieldOf_of_ok {text : String} {v : BaseElement} (h : parseFe text = .ok v) : fieldOf text = v := by
  unfold fieldOf
  rw [h]
  rfl

/-- All field elements of a snapshot are texts of field elements. -/
structure Readable (snapshot : StableState) : Prop where
  nodes : ∀ n ∈ snapshot.nodes, ∃ v, parseFe n.2.2 = .ok v
  challenges : ∀ c ∈ snapshot.challenges, ∃ v, parseFe c.merkleRoot = .ok v

def StableRecord.record (r : StableRecord) : Record :=
  ⟨r.propertyId, r.ownerCommitment, r.encumbranceFlag, r.licenseStatus, r.licenseExpiry⟩

def StableChallenge.challenge (c : StableChallenge) : Challenge :=
  ⟨c.registryId, fieldOf c.merkleRoot, c.purpose, c.requestNonce, c.currentTimestamp, c.expiresAt, c.consumed, c.requester⟩

theorem restoreNode_ok {n : ℕ × ℕ × String} {b : (ℕ × ℕ) × BaseElement} (h : restoreNode n = .ok b) :
    b = ((n.1, n.2.1), fieldOf n.2.2) := by
  unfold restoreNode at h
  cases hv : parseFe n.2.2 with
  | error e =>
    rw [hv] at h
    cases h
  | ok v =>
    rw [hv] at h
    cases h
    rw [fieldOf_of_ok hv]

theorem exists_restoreNode {n : ℕ × ℕ × String} : (∃ b, restoreNode n = .ok b) ↔ ∃ v, parseFe n.2.2 = .ok v := by
  unfold restoreNode
  cases parseFe n.2.2 with
  | error e => simp [Except.map]
  | ok v => simp [Except.map]

theorem restoreChallenge_ok {c : StableChallenge} {b : UInt64 × Challenge} (h : restoreChallenge c = .ok b) :
    b = (c.id, c.challenge) := by
  unfold restoreChallenge at h
  unfold StableChallenge.challenge
  cases hv : parseFe c.merkleRoot with
  | error e =>
    rw [hv] at h
    cases h
  | ok v =>
    rw [hv] at h
    cases h
    rw [fieldOf_of_ok hv]

theorem exists_restoreChallenge {c : StableChallenge} :
    (∃ b, restoreChallenge c = .ok b) ↔ ∃ v, parseFe c.merkleRoot = .ok v := by
  unfold restoreChallenge
  cases parseFe c.merkleRoot with
  | error e => simp [Except.map]
  | ok v => simp [Except.map]

/-- The state a readable snapshot restores. -/
def restored (snapshot : StableState) : State where
  zeroHashes := initZeroHashes
  admins := snapshot.admins
  records := collect (snapshot.records.map fun r => (r.propertyId, r.record))
  leafIndexByProperty := collect snapshot.leafIndexByProperty
  nodes := collect (snapshot.nodes.map fun n => ((n.1, n.2.1), fieldOf n.2.2))
  currentRoot := ((collect (snapshot.nodes.map fun n => ((n.1, n.2.1), fieldOf n.2.2))).lookup (treeDepth, 0)).getD
    (initZeroHashes.getD treeDepth 0)
  nextLeafIndex := snapshot.nextLeafIndex
  challenges := collect (snapshot.challenges.map fun c => (c.id, c.challenge))
  nextChallengeId := snapshot.nextChallengeId
  nextNonce := snapshot.nextNonce
  oldestUnprunedChallengeId := snapshot.oldestUnprunedChallengeId
  nullifiers := collect snapshot.nullifiers
  lastChallengeCallAt := collect snapshot.lastChallengeCallAt
  lastVerifyCallAt := collect snapshot.lastVerifyCallAt
  challengeThrottleLog := []
  verifyThrottleLog := []

theorem postUpgrade_ok_iff {snapshot : StableState} {s : State} :
    postUpgrade snapshot = .ok s ↔ Readable snapshot ∧ s = restored snapshot := by
  have hnodes : ∀ bs, snapshot.nodes.mapM restoreNode = .ok bs ↔ _ := fun bs => mapM_eq_ok fun _ _ => restoreNode_ok
  have hchallenges : ∀ bs, snapshot.challenges.mapM restoreChallenge = .ok bs ↔ _ := fun bs =>
    mapM_eq_ok fun _ _ => restoreChallenge_ok
  unfold postUpgrade
  constructor
  · intro h
    cases hn : snapshot.nodes.mapM restoreNode with
    | error e =>
      rw [hn] at h
      cases h
    | ok nodes =>
      cases hc : snapshot.challenges.mapM restoreChallenge with
      | error e =>
        rw [hn, hc] at h
        cases h
      | ok challenges =>
        rw [hn, hc] at h
        obtain ⟨hall, rfl⟩ := (hnodes nodes).1 hn
        obtain ⟨hall', rfl⟩ := (hchallenges challenges).1 hc
        refine ⟨⟨fun n hn => exists_restoreNode.1 (hall n hn), fun c hc => exists_restoreChallenge.1 (hall' c hc)⟩, ?_⟩
        exact (Except.ok.inj h).symm
  · rintro ⟨h, rfl⟩
    rw [(hnodes _).2 ⟨fun n hn => exists_restoreNode.2 (h.nodes n hn), rfl⟩,
      (hchallenges _).2 ⟨fun c hc => exists_restoreChallenge.2 (h.challenges c hc), rfl⟩]
    rfl

theorem restored_keyed (snapshot : StableState) : Keyed (restored snapshot) := by
  intro k r hr
  have hlast : (restored snapshot).records.lookup k = _ :=
    lookup_collect_map StableRecord.propertyId StableRecord.record
    snapshot.records k
  rw [hlast] at hr
  obtain ⟨sr, hsr, rfl⟩ := Option.map_eq_some_iff.1 hr
  have hmem := List.mem_filter.1 (List.mem_of_getLast? hsr)
  exact of_decide_eq_true hmem.2

/-- A snapshot is accepted exactly if all its nodes and challenge roots are texts of field elements. Then the last
record, node and challenge of each key are restored, and the restored state is a fixed point: its own snapshot,
in any order of iteration, is accepted and restores the same state. -/
theorem restore_exact (snapshot : StableState) :
    ((∃ s, postUpgrade snapshot = .ok s) ↔ Readable snapshot) ∧
    ∀ s, postUpgrade snapshot = .ok s →
      (∀ p, s.records.lookup p =
        ((snapshot.records.filter fun r => r.propertyId = p).getLast?).map StableRecord.record) ∧
      (∀ key, s.nodes.lookup key =
        ((snapshot.nodes.filter fun n => (n.1, n.2.1) = key).getLast?).map fun n => fieldOf n.2.2) ∧
      (∀ id, s.challenges.lookup id =
        ((snapshot.challenges.filter fun c => c.id = id).getLast?).map StableChallenge.challenge) ∧
      ∀ o : Orders s, postUpgrade (preUpgrade s o) = .ok s := by
  constructor
  · constructor
    · rintro ⟨s, h⟩
      exact (postUpgrade_ok_iff.1 h).1
    · intro h
      exact ⟨_, postUpgrade_ok_iff.2 ⟨h, rfl⟩⟩
  · intro s h
    obtain ⟨-, rfl⟩ := postUpgrade_ok_iff.1 h
    refine ⟨?_, ?_, ?_, fun o => ?_⟩
    · exact lookup_collect_map _ _ snapshot.records
    · exact lookup_collect_map (fun n : ℕ × ℕ × String => (n.1, n.2.1)) _ snapshot.nodes
    · exact lookup_collect_map _ _ snapshot.challenges
    · exact postUpgrade_preUpgrade (restored_keyed snapshot) o

end Yaqeen.Canister
