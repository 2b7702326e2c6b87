/-
Maps backed by a log: an entry is logged when it is stored, and pruning pops stale entries from the
front of the log, at most a cap of them, dropping from the map those not replaced since. One
pruning, entry by entry; that it never leaves an entry without its log; what an early exit misses.
-/
import Yaqeen.Lib.FinMap
import Mathlib.Data.List.Pairwise

namespace LoggedMap

open FinMap

variable {K V : Type} [DecidableEq K]

/-- Pops at most `n` stale entries from the front of the log; the map drops those it still holds. -/
def prune [DecidableEq V] (stale : V → Prop) [DecidablePred stale] :
    ℕ → HashMap K V → List (K × V) → HashMap K V × List (K × V)
  | 0, m, log => (m, log)
  | _ + 1, m, [] => (m, [])
  | n + 1, m, (k, v) :: rest =>
    if stale v then prune stale n (if m.lookup k = some v then m.erase k else m) rest else (m, (k, v) :: rest)

/-- Every entry of the map is in the log. -/
def Covered (m : HashMap K V) (log : List (K × V)) : Prop := ∀ k v, m.lookup k = some v → (k, v) ∈ log

/-- What pruning a log `popped ++ rest` under a cap comes to. -/
structure Pruned (stale : V → Prop) (cap : ℕ) (m : HashMap K V) (popped rest : List (K × V)) (m' : HashMap K V) :
    Prop where
  capped : popped.length ≤ cap
  popped_stale : ∀ e ∈ popped, stale e.2
  early : popped.length < cap → ∀ e ∈ rest.head?, ¬ stale e.2
  lookup : ∀ k v, m'.lookup k = some v ↔ m.lookup k = some v ∧ (k, v) ∉ popped

section

variable [DecidableEq V] {stale : V → Prop} [DecidablePred stale]

theorem lookup_drop (m : HashMap K V) (k k' : K) (v v' : V) :
    (if m.lookup k = some v then m.erase k else m).lookup k' = some v' ↔
      m.lookup k' = some v' ∧ (k', v') ≠ (k, v) := by
  by_cases h : m.lookup k = some v
  · rw [if_pos h, lookup_erase]
    by_cases hk : k' = k
    · rw [if_pos hk, hk, h]
      constructor
      · intro hc; cases hc
      · rintro ⟨hv, hne⟩
        cases hv
        exact absurd rfl hne
    · rw [if_neg hk]
      exact ⟨fun hv => ⟨hv, fun he => hk (congrArg Prod.fst he)⟩, fun hv => hv.1⟩
  · rw [if_neg h]
    refine ⟨fun hv => ⟨hv, fun he => ?_⟩, fun hv => hv.1⟩
    cases he
    exact h hv

variable (stale) in
theorem prune_spec : ∀ n (m : HashMap K V) (log : List (K × V)), ∃ popped rest, log = popped ++ rest ∧
    (prune stale n m log).2 = rest ∧ Pruned stale n m popped rest (prune stale n m log).1
  | 0, m, log => ⟨[], log, rfl, rfl, le_rfl, by simp, fun h => absurd h (Nat.lt_irrefl 0), fun k v => by simp [prune]⟩
  | n + 1, m, [] => ⟨[], [], rfl, rfl, Nat.zero_le _, by simp, by simp, fun k v => by simp [prune]⟩
  | n + 1, m, (k, v) :: log => by
    unfold prune
    by_cases hv : stale v
    · rw [if_pos hv]
      obtain ⟨popped, rest, rfl, hrest, h⟩ := prune_spec n (if m.lookup k = some v then m.erase k else m) log
      refine ⟨(k, v) :: popped, rest, rfl, hrest, Nat.succ_le_succ h.capped, ?_, ?_, fun k' v' => ?_⟩
      · exact List.forall_mem_cons.2 ⟨hv, h.popped_stale⟩
      · exact fun hlt => h.early (Nat.lt_of_succ_lt_succ hlt)
      · rw [h.lookup, lookup_drop, List.mem_cons, not_or, and_assoc]
    · rw [if_neg hv]
      refine ⟨[], (k, v) :: log, rfl, rfl, Nat.zero_le _, by simp, fun _ e he => ?_, fun k v => by simp⟩
      cases he
      exact hv

end

namespace Pruned

variable {stale : V → Prop} {cap : ℕ} {m m' : HashMap K V} {popped rest : List (K × V)}

theorem covered (h : Pruned stale cap m popped rest m') (hc : Covered m (popped ++ rest)) : Covered m' rest := by
  intro k v hk
  obtain ⟨hk, hn⟩ := (h.lookup k v).1 hk
  exact (List.mem_append.1 (hc k v hk)).resolve_left hn

/-- An entry of the map survives, or it was popped. -/
theorem lookup_cases (h : Pruned stale cap m popped rest m') (k : K) :
    m'.lookup k = m.lookup k ∨ (m'.lookup k = none ∧ ∃ v, m.lookup k = some v ∧ (k, v) ∈ popped) := by
  cases hk : m.lookup k with
  | none =>
    refine .inl (Option.eq_none_iff_forall_not_mem.2 fun v hv => ?_)
    have := ((h.lookup k v).1 hv).1
    rw [hk] at this
    cases this
  | some v =>
    by_cases hp : (k, v) ∈ popped
    · refine .inr ⟨Option.eq_none_iff_forall_not_mem.2 fun v' hv' => ?_, v, rfl, hp⟩
      obtain ⟨hv, hn⟩ := (h.lookup k v').1 hv'
      rw [hk] at hv
      cases hv
      exact hn hp
    · exact .inl ((h.lookup k v).2 ⟨hk, hp⟩)

/-- A stale entry that an early exit leaves behind stands in the log after one that is not stale. -/
theorem missed (h : Pruned stale cap m popped rest m') (hc : Covered m (popped ++ rest)) (hlt : popped.length < cap)
    {k : K} {v : V} (hk : m'.lookup k = some v) (hv : stale v) :
    ∃ e, ¬ stale e.2 ∧ [e, (k, v)].Sublist (popped ++ rest) := by
  have hm := h.covered hc k v hk
  cases rest with
  | nil => cases hm
  | cons e rest =>
    have he : ¬ stale e.2 := h.early hlt e rfl
    refine ⟨e, he, ?_⟩
    rcases List.mem_cons.1 hm with rfl | hm
    · exact absurd hv he
    · exact (List.cons_sublist_cons.2 (List.singleton_sublist.2 hm)).trans (List.sublist_append_right _ _)

/-- With only stale entries logged, pruning pops all of them or as many as the cap allows. -/
theorem length_popped (h : Pruned stale cap m popped rest m') (hall : ∀ e ∈ rest, stale e.2) :
    popped.length = min (popped ++ rest).length cap := by
  have hcap := h.capped
  rw [List.length_append]
  cases rest with
  | nil => rw [List.length_nil]; omega
  | cons e rest =>
    have : ¬ popped.length < cap := fun hlt => h.early hlt e rfl (hall e List.mem_cons_self)
    omega

end Pruned

/-- A pair in a log with one entry appended is in the log or ends with that entry. -/
theorem pair_sublist_snoc {α : Type} {l : List α} {a b x : α} (h : [a, b].Sublist (l ++ [x])) :
    [a, b].Sublist l ∨ (b = x ∧ a ∈ l) := by
  obtain ⟨l₁, l₂, heq, h₁, h₂⟩ := List.sublist_append_iff.1 h
  match l₁, heq with
  | [], heq =>
    subst heq
    have := h₂.length_le
    simp at this
  | [c], heq =>
    simp only [List.singleton_append, List.cons.injEq] at heq
    obtain ⟨rfl, rfl⟩ := heq
    exact .inr ⟨List.mem_singleton.1 (h₂.subset List.mem_cons_self), h₁.subset List.mem_cons_self⟩
  | [c, d], heq =>
    simp only [List.cons_append, List.nil_append, List.cons.injEq] at heq
    obtain ⟨rfl, rfl, -⟩ := heq
    exact .inl h₁
  | _ :: _ :: _ :: _, heq => simp at heq

/-- A map whose log is empty holds no entry. -/
theorem Covered.empty {m : HashMap K V} (h : Covered m []) : m = ∅ := by
  refine Finmap.ext_lookup fun k => ?_
  rw [Finmap.lookup_empty, Option.eq_none_iff_forall_not_mem]
  intro v hv
  exact absurd (h k v hv) List.not_mem_nil

end LoggedMap
