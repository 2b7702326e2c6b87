/-
Finite maps with extensional equality (Mathlib's `Finmap`) as a program's hash maps: what `insert`
and `erase` do to a lookup, maps that number their keys, the entry lists an iterator may yield, and
the map collected from a list of entries. Iterating a map in any order and collecting the entries
gives the map back.
-/
import Mathlib.Data.Finmap
import Mathlib.Data.List.Nodup

namespace FinMap

/-- A hash map: equal maps are those with equal lookups; iteration order is not part of it. -/
abbrev HashMap (K V : Type) := Finmap fun _ : K => V

variable {K V : Type} [DecidableEq K]

/-! ## Lookups -/

theorem lookup_insert (m : HashMap K V) (k k' : K) (v : V) :
    (m.insert k v).lookup k' = if k' = k then some v else m.lookup k' := by
  split
  · rename_i h; subst h; exact Finmap.lookup_insert m
  · rename_i h; exact Finmap.lookup_insert_of_ne m h

theorem lookup_erase (m : HashMap K V) (k k' : K) :
    (m.erase k).lookup k' = if k' = k then none else m.lookup k' := by
  split
  · rename_i h; subst h; exact Finmap.lookup_erase _ m
  · rename_i h; exact Finmap.lookup_erase_ne h

theorem mem_keys_iff (m : HashMap K V) (k : K) : k ∈ m.keys ↔ ∃ v, m.lookup k = some v := by
  rw [Finmap.mem_keys, Finmap.mem_iff]

theorem card_keys_insert_of_none {m : HashMap K V} {k : K} (v : V) (h : m.lookup k = none) :
    (m.insert k v).keys.card = m.keys.card + 1 := by
  have hk : k ∉ m.keys := by rw [Finmap.mem_keys]; exact Finmap.lookup_eq_none.1 h
  have : (m.insert k v).keys = insert k m.keys := by
    ext x; simp only [Finmap.mem_keys, Finmap.mem_insert, Finset.mem_insert]
  rw [this, Finset.card_insert_of_notMem hk]

/-! ## Maps that number their keys -/

/-- The values of a map are the numbers below its size, each that of one key. -/
structure Numbered (m : HashMap K ℕ) : Prop where
  lt : ∀ k i, m.lookup k = some i → i < m.keys.card
  inj : ∀ k k' i, m.lookup k = some i → m.lookup k' = some i → k = k'
  surj : ∀ i < m.keys.card, ∃ k, m.lookup k = some i

/-- A new key takes the next number. -/
theorem Numbered.insert {m : HashMap K ℕ} (h : Numbered m) {k : K} (hk : m.lookup k = none) :
    Numbered (m.insert k m.keys.card) := by
  have hcard := card_keys_insert_of_none m.keys.card hk
  have hfresh : ∀ k', m.lookup k' ≠ some m.keys.card := fun k' hk' => absurd (h.lt k' _ hk') (Nat.lt_irrefl _)
  refine ⟨fun k' i hi => ?_, fun k₁ k₂ i h₁ h₂ => ?_, fun i hi => ?_⟩
  · rw [hcard]
    rw [lookup_insert] at hi
    split at hi
    · cases hi
      exact Nat.lt_succ_self _
    · exact Nat.lt_succ_of_lt (h.lt k' i hi)
  · rw [lookup_insert] at h₁ h₂
    split at h₁ <;> split at h₂
    · rename_i hk₁ hk₂
      rw [hk₁, hk₂]
    · cases h₁
      exact absurd h₂ (hfresh k₂)
    · cases h₂
      exact absurd h₁ (hfresh k₁)
    · exact h.inj k₁ k₂ i h₁ h₂
  · rw [hcard] at hi
    rcases Nat.lt_succ_iff_lt_or_eq.1 hi with hi | rfl
    · obtain ⟨k', hk'⟩ := h.surj i hi
      refine ⟨k', ?_⟩
      rw [lookup_insert, if_neg, hk']
      rintro rfl
      rw [hk] at hk'
      cases hk'
    · exact ⟨k, by rw [lookup_insert, if_pos rfl]⟩

/-! ## Iteration and collection -/

/-- An order in which an iterator may yield the entries of a map: every entry, each key once. -/
structure Iteration (m : HashMap K V) where
  entries : List (K × V)
  nodup : (entries.map Prod.fst).Nodup
  mem : ∀ k v, (k, v) ∈ entries ↔ m.lookup k = some v

def Iteration.empty : Iteration (∅ : HashMap K V) where
  entries := []
  nodup := List.nodup_nil
  mem k v := by rw [Finmap.lookup_empty]; simp

/-- An iteration that yields a new entry first. -/
def Iteration.cons {m : HashMap K V} (it : Iteration m) (k : K) (v : V) (h : m.lookup k = none) :
    Iteration (m.insert k v) where
  entries := (k, v) :: it.entries
  nodup := by
    refine List.nodup_cons.2 ⟨fun hk => ?_, it.nodup⟩
    obtain ⟨⟨k', v'⟩, he, rfl⟩ := List.mem_map.1 hk
    rw [(it.mem k' v').1 he] at h
    cases h
  mem k' v' := by
    rw [List.mem_cons, it.mem, lookup_insert, Prod.mk.injEq]
    by_cases hk : k' = k
    · subst hk
      rw [if_pos rfl, h, Option.some.injEq]
      simp [eq_comm]
    · rw [if_neg hk]
      simp [hk]

/-- Any two iterations of a map yield the same entries. -/
theorem Iteration.perm {m : HashMap K V} (it it' : Iteration m) : it.entries.Perm it'.entries := by
  refine (List.perm_ext_iff_of_nodup (List.Nodup.of_map _ it.nodup) (List.Nodup.of_map _ it'.nodup)).2 ?_
  rintro ⟨k, v⟩
  rw [it.mem, it'.mem]

/-- The map collected from a list of entries; a later entry of a key replaces an earlier one. -/
def collect (l : List (K × V)) : HashMap K V := l.foldl (fun m e => m.insert e.1 e.2) ∅

theorem lookup_foldl_insert (k : K) :
    ∀ (l : List (K × V)) (m : HashMap K V), k ∉ l.map Prod.fst →
      (l.foldl (fun m e => m.insert e.1 e.2) m).lookup k = m.lookup k
  | [], _, _ => rfl
  | e :: l, m, h => by
    simp only [List.map_cons, List.mem_cons, not_or] at h
    rw [List.foldl_cons, lookup_foldl_insert k l _ h.2, lookup_insert, if_neg h.1]

theorem lookup_foldl_insert_of_mem (k : K) (v : V) :
    ∀ (l : List (K × V)) (m : HashMap K V), (l.map Prod.fst).Nodup → (k, v) ∈ l →
      (l.foldl (fun m e => m.insert e.1 e.2) m).lookup k = some v
  | e :: l, m, hn, h => by
    simp only [List.map_cons, List.nodup_cons] at hn
    rw [List.foldl_cons]
    rcases List.mem_cons.1 h with rfl | h
    · rw [lookup_foldl_insert k l _ hn.1, lookup_insert, if_pos rfl]
    · exact lookup_foldl_insert_of_mem k v l _ hn.2 h

/-- With distinct keys, the collected map holds exactly the listed entries. -/
theorem lookup_collect {l : List (K × V)} (hn : (l.map Prod.fst).Nodup) (k : K) (v : V) :
    (collect l).lookup k = some v ↔ (k, v) ∈ l := by
  constructor
  · intro h
    by_cases hk : k ∈ l.map Prod.fst
    · obtain ⟨⟨k', w⟩, hm, rfl⟩ := List.mem_map.1 hk
      have hw := lookup_foldl_insert_of_mem k' w l ∅ hn hm
      unfold collect at h
      rw [hw] at h
      cases h; exact hm
    · unfold collect at h
      rw [lookup_foldl_insert k l ∅ hk, Finmap.lookup_empty] at h
      cases h
  · exact lookup_foldl_insert_of_mem k v l ∅ hn

/-- Collecting the entries of a map, in any iteration order, restores the map. -/
theorem collect_iteration {m : HashMap K V} (it : Iteration m) : collect it.entries = m := by
  refine Finmap.ext_lookup fun k => ?_
  ext v
  rw [lookup_collect it.nodup, it.mem]

/-- Of several entries with one key the last is collected. -/
theorem lookup_collect_map {A : Type} (key : A → K) (val : A → V) (l : List A) (k : K) :
    (collect (l.map fun a => (key a, val a))).lookup k = ((l.filter fun a => key a = k).getLast?).map val := by
  induction l using List.reverseRecOn with
  | nil => exact Finmap.lookup_empty k
  | append_singleton l a ih =>
    unfold collect at ih ⊢
    rw [List.map_append, List.foldl_append, List.map_cons, List.map_nil, List.foldl_cons, List.foldl_nil, lookup_insert,
      List.filter_append, List.filter_singleton, ih]
    by_cases hk : key a = k
    · rw [if_pos hk.symm, decide_eq_true hk, cond_true, List.getLast?_concat, Option.map_some]
    · rw [if_neg (Ne.symm hk), decide_eq_false hk, cond_false, List.append_nil]

/-- Every map can be iterated. -/
theorem exists_iteration (m : HashMap K V) : Nonempty (Iteration m) := by
  induction m using Finmap.induction_on with
  | H a =>
    refine ⟨⟨a.entries.map fun e => (e.1, e.2), ?_, fun k v => ?_⟩⟩
    · rw [List.map_map]; exact a.nodupKeys
    · rw [Finmap.lookup_toFinmap, ← Option.mem_def, AList.mem_lookup_iff, List.mem_map]
      constructor
      · rintro ⟨e, he, h⟩
        cases h
        exact he
      · intro h
        exact ⟨⟨k, v⟩, h, rfl⟩

/-! ## Maps that differ by dead entries -/

/-- Two maps agree on every key, but for dead entries that only one of them holds. -/
def AgreeUpTo (dead : V → Prop) (m m' : HashMap K V) : Prop :=
  ∀ k, m.lookup k = m'.lookup k ∨
    ∃ v, dead v ∧ (m.lookup k = some v ∧ m'.lookup k = none ∨ m.lookup k = none ∧ m'.lookup k = some v)

namespace AgreeUpTo

variable {dead dead' : V → Prop} {m m' m₁ : HashMap K V}

theorem refl (m : HashMap K V) : AgreeUpTo dead m m := fun _ => .inl rfl

theorem symm (h : AgreeUpTo dead m m') : AgreeUpTo dead m' m := by
  intro k
  rcases h k with h | ⟨v, hv, h | h⟩
  · exact .inl h.symm
  · exact .inr ⟨v, hv, .inr h.symm⟩
  · exact .inr ⟨v, hv, .inl h.symm⟩

theorem mono (h : AgreeUpTo dead m m') (hd : ∀ v, dead v → dead' v) : AgreeUpTo dead' m m' :=
  fun k => (h k).imp id fun ⟨v, hv, h⟩ => ⟨v, hd v hv, h⟩

/-- An entry that is not dead is in both. -/
theorem alive (h : AgreeUpTo dead m m') {k : K} {v : V} (hk : m.lookup k = some v) (hv : ¬ dead v) :
    m'.lookup k = some v := by
  rcases h k with h | ⟨w, hw, ⟨h, -⟩ | ⟨h, -⟩⟩
  · rw [← h, hk]
  · rw [hk] at h
    cases h
    exact absurd hw hv
  · rw [hk] at h
    cases h

theorem insert (h : AgreeUpTo dead m m') (k : K) (v : V) : AgreeUpTo dead (m.insert k v) (m'.insert k v) := by
  intro k'
  rw [lookup_insert, lookup_insert]
  by_cases hk : k' = k
  · rw [if_pos hk, if_pos hk]
    exact .inl rfl
  · rw [if_neg hk, if_neg hk]
    exact h k'

/-- One of the maps may lose dead entries. -/
theorem lose (h : AgreeUpTo dead m m')
    (hlose : ∀ k, m₁.lookup k = m.lookup k ∨ (m₁.lookup k = none ∧ ∃ v, m.lookup k = some v ∧ dead v)) :
    AgreeUpTo dead m₁ m' := by
  intro k
  rcases hlose k with hk | ⟨hk, v, hv, hdead⟩
  · rw [hk]
    exact h k
  · rcases h k with h | ⟨w, hw, ⟨-, h⟩ | ⟨h, -⟩⟩
    · exact .inr ⟨v, hdead, .inr ⟨hk, h ▸ hv⟩⟩
    · exact .inl (hk.trans h.symm)
    · rw [hv] at h
      cases h

end AgreeUpTo

end FinMap
