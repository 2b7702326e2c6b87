/-
An upgrade as a round trip: while the registry fits its tree, the state restored from the snapshot is
the state before in every field, the two throttle logs excepted, which hold the entries of their maps.
The root and the zero hashes are not in the snapshot; the tree invariant gives them back.
-/
import Yaqeen.Canister.Nullifiers

namespace Yaqeen.Canister

open Air FinMap Runs

theorem TreeInv.restored_root {s : State} (h : TreeInv s)
    (hlt : ∀ p i, s.leafIndexByProperty.lookup p = some i → i < 2 ^ treeDepth) :
    (s.nodes.lookup (treeDepth, 0)).getD (initZeroHashes.getD treeDepth 0) = s.currentRoot := by
  rw [h.root hlt]
  -- while no index is outside the tree, the root is node (25, 0), stored or zero
  unfold nodeAt
  rw [h.zeros]

/-- Restoring the snapshot gives back all but the logs. -/
theorem TreeInv.restore {s : State} (h : TreeInv s)
    (hlt : ∀ p i, s.leafIndexByProperty.lookup p = some i → i < 2 ^ treeDepth) (o : Orders s) :
    postUpgrade (preUpgrade s o) = .ok { s with challengeThrottleLog := [], verifyThrottleLog := [] } := by
  rw [postUpgrade_preUpgrade h.keyed o, h.restored_root hlt, ← h.zeros]

/-- In every reachable state with at most `2^25` properties, and for all orders of iteration, an upgrade
does not panic and restores every field; each log holds the entries of its map. -/
theorem upgrade_round_trip {tr : Trace} {s : State} (h : CanisterRun tr s)
    (hcap : s.leafIndexByProperty.keys.card ≤ 2 ^ treeDepth) (o : Orders s) :
    ∃ s', postUpgrade (preUpgrade s o) = .ok s' ∧
      ∀ (challenge : Iteration s'.lastChallengeCallAt) (verify : Iteration s'.lastVerifyCallAt),
        rebuildLogs s' challenge verify =
          { s with challengeThrottleLog := challenge.entries, verifyThrottleLog := verify.entries } ∧
        (rebuildLogs s' challenge verify).challengeThrottleLog.Perm o.lastChallengeCallAt.entries ∧
        (rebuildLogs s' challenge verify).verifyThrottleLog.Perm o.lastVerifyCallAt.entries := by
  have hinv := treeInv_reachable h
  have hrestore := hinv.restore (fun p i hp => lt_of_lt_of_le (hinv.index_lt p i hp) hcap) o
  exact ⟨_, hrestore, fun challenge verify =>
    ⟨rfl, challenge.perm o.lastChallengeCallAt, verify.perm o.lastVerifyCallAt⟩⟩

theorem upgrade_round_trip_sample :
    let s := (verifyTransition (accepting (sampleStatement freshState 7)) freshState 7).post
    ∃ (o : Orders s) (s' : State), postUpgrade (preUpgrade s o) = .ok s' ∧ s'.challenges = s.challenges ∧
      s'.nullifiers = s.nullifiers ∧ s'.currentRoot = s.currentRoot := by
  intro s
  obtain ⟨o⟩ := exists_orders s
  have hcap : s.leafIndexByProperty.keys.card ≤ 2 ^ treeDepth := by
    show (∅ : HashMap UInt64 ℕ).keys.card ≤ _
    rw [Finmap.keys_empty, Finset.card_empty]
    exact Nat.zero_le _
  obtain ⟨s', hs', hfields⟩ := upgrade_round_trip (sample_run quiet_fresh) hcap o
  obtain ⟨challenge⟩ := exists_iteration s'.lastChallengeCallAt
  obtain ⟨verify⟩ := exists_iteration s'.lastVerifyCallAt
  have heq := (hfields challenge verify).1
  have hchallenges := congrArg State.challenges heq
  have hnullifiers := congrArg State.nullifiers heq
  have hroot := congrArg State.currentRoot heq
  exact ⟨o, s', hs', hchallenges, hnullifiers, hroot⟩

end Yaqeen.Canister
