/-
Registers: entries in the order in which their keys first appeared, each key once. A further version of
an entry takes the slot of its key, a new one the next slot. So the slot of a key never changes, and the
register made from a list of versions holds the last version of each key.
-/
import Mathlib.Data.List.Induction
import Mathlib.Data.List.Nodup

/-- Entries that are told apart by their keys. -/
structure Register {α κ : Type} (key : α → κ) where
  entries : List α
  nodup : (entries.map key).Nodup

namespace Register

variable {α κ : Type} [DecidableEq κ] {key : α → κ}

def empty : Register key := ⟨[], List.nodup_nil⟩

def size (g : Register key) : ℕ := g.entries.length

/-- The position of the entry with a key. -/
def slot (g : Register key) (k : κ) : Option ℕ := g.entries.findIdx? fun a => key a = k

def get (g : Register key) (k : κ) : Option α := g.entries.find? fun a => key a = k

/-! ## Slots -/

theorem slot_eq_some {g : Register key} {k : κ} {i : ℕ} :
    g.slot k = some i ↔ ∃ a, g.entries[i]? = some a ∧ key a = k := by
  unfold slot
  rw [List.findIdx?_eq_some_iff_getElem]
  constructor
  · rintro ⟨hi, hk, -⟩
    exact ⟨_, List.getElem?_eq_getElem hi, by simpa using hk⟩
  · rintro ⟨a, ha, rfl⟩
    obtain ⟨hi, rfl⟩ := List.getElem?_eq_some_iff.1 ha
    refine ⟨hi, by simp, fun j hj hjk => ?_⟩
    -- the key of an earlier entry would stand twice
    have hkey : (g.entries.map key)[j]? = (g.entries.map key)[i]? := by
      rw [List.getElem?_map, List.getElem?_map, List.getElem?_eq_getElem hi,
        List.getElem?_eq_getElem (Nat.lt_trans hj hi)]
      exact congrArg some (by simpa using hjk)
    exact absurd ((List.getElem?_inj (by simpa using Nat.lt_trans hj hi) g.nodup).1 hkey) (Nat.ne_of_lt hj)

theorem slot_eq_none {g : Register key} {k : κ} : g.slot k = none ↔ ∀ a ∈ g.entries, key a ≠ k := by
  unfold slot
  simp [List.findIdx?_eq_none_iff]

theorem slot_lt {g : Register key} {k : κ} {i : ℕ} (h : g.slot k = some i) : i < g.size := by
  obtain ⟨a, ha, -⟩ := slot_eq_some.1 h
  exact (List.getElem?_eq_some_iff.1 ha).1

theorem get_eq_some {g : Register key} {k : κ} {a : α} : g.get k = some a ↔ a ∈ g.entries ∧ key a = k := by
  constructor
  · intro h
    exact ⟨List.mem_of_find?_eq_some h, by simpa using List.find?_some h⟩
  · rintro ⟨ha, rfl⟩
    unfold get
    cases hf : g.entries.find? fun b => key b = key a with
    | none =>
      rw [List.find?_eq_none] at hf
      exact absurd (decide_eq_true rfl) (hf a ha)
    | some b =>
      have hb : key b = key a := by simpa using List.find?_some hf
      rw [List.inj_on_of_nodup_map g.nodup (List.mem_of_find?_eq_some hf) ha hb]

/-- The entry of a key stands at its slot. -/
theorem get_eq_slot (g : Register key) (k : κ) : g.get k = (g.slot k).bind fun i => g.entries[i]? := by
  apply Option.ext
  intro a
  rw [get_eq_some, Option.bind_eq_some_iff]
  constructor
  · rintro ⟨ha, rfl⟩
    obtain ⟨i, hi⟩ := List.getElem?_of_mem ha
    exact ⟨i, slot_eq_some.2 ⟨a, hi, rfl⟩, hi⟩
  · rintro ⟨i, hslot, hi⟩
    obtain ⟨b, hb, rfl⟩ := slot_eq_some.1 hslot
    rw [hb] at hi
    cases hi
    exact ⟨List.mem_of_getElem? hb, rfl⟩

/-! ## Entering a version -/

/-- The slot a version of an entry takes. -/
def slotFor (g : Register key) (a : α) : ℕ := (g.slot (key a)).getD g.size

def enterEntries (g : Register key) (a : α) : List α :=
  match g.slot (key a) with
  | some i => g.entries.set i a
  | none => g.entries ++ [a]

theorem getElem?_enterEntries (g : Register key) (a : α) (j : ℕ) :
    (g.enterEntries a)[j]? = if j = g.slotFor a then some a else g.entries[j]? := by
  unfold enterEntries slotFor
  cases hslot : g.slot (key a) with
  | some i =>
    rw [Option.getD_some, List.getElem?_set]
    by_cases hj : j = i
    · rw [if_pos hj.symm, if_pos hj]
      exact if_pos (slot_lt hslot)
    · rw [if_neg (Ne.symm hj), if_neg hj]
  | none =>
    rw [Option.getD_none, List.getElem?_append]
    by_cases hj : j = g.size
    · rw [if_pos hj, if_neg (by rw [hj]; exact Nat.lt_irrefl _), hj]
      simp [size]
    · rw [if_neg hj]
      split
      · rfl
      · rename_i hlt
        rw [List.getElem?_eq_none (Nat.le_of_not_lt hlt), List.getElem?_eq_none]
        have hj : j ≠ g.entries.length := hj
        simp only [List.length_cons, List.length_nil]
        omega

theorem map_key_enterEntries (g : Register key) (a : α) : (g.enterEntries a).map key =
    match g.slot (key a) with
    | some _ => g.entries.map key
    | none => g.entries.map key ++ [key a] := by
  unfold enterEntries
  cases hslot : g.slot (key a) with
  | some i =>
    obtain ⟨b, hb, hkey⟩ := slot_eq_some.1 hslot
    have hi : (g.entries.map key)[i]? = some (key a) := by rw [List.getElem?_map, hb, Option.map_some, hkey]
    simp only [List.map_set]
    exact List.ext_getElem? fun j => by
      rw [List.getElem?_set]
      split
      · rename_i hij
        subst hij
        rw [hi]
        exact if_pos (List.getElem?_eq_some_iff.1 hi).1
      · rfl
  | none => simp

/-- A version of an entry, in the slot of its key if that has one and else in the next. -/
def enter (g : Register key) (a : α) : Register key where
  entries := g.enterEntries a
  nodup := by
    rw [map_key_enterEntries]
    cases hslot : g.slot (key a) with
    | some _ => exact g.nodup
    | none =>
      refine List.nodup_append.2 ⟨g.nodup, List.nodup_singleton _, ?_⟩
      intro k hk k' hk'
      obtain ⟨b, hb, rfl⟩ := List.mem_map.1 hk
      rw [List.mem_singleton.1 hk']
      exact slot_eq_none.1 hslot b hb

theorem entries_enter (g : Register key) (a : α) (j : ℕ) :
    (g.enter a).entries[j]? = if j = g.slotFor a then some a else g.entries[j]? :=
  getElem?_enterEntries g a j

theorem size_enter (g : Register key) (a : α) :
    (g.enter a).size = match g.slot (key a) with
      | some _ => g.size
      | none => g.size + 1 := by
  have hlen := congrArg List.length (map_key_enterEntries g a)
  rw [List.length_map] at hlen
  unfold size
  rw [show (g.enter a).entries = g.enterEntries a from rfl, hlen]
  cases g.slot (key a) <;> simp

theorem size_le_enter (g : Register key) (a : α) : g.size ≤ (g.enter a).size := by
  rw [size_enter]
  cases g.slot (key a) with
  | some i => exact Nat.le_refl _
  | none => exact Nat.le_succ _

theorem slotFor_of_key {g : Register key} {a b : α} {j : ℕ} (hb : g.entries[j]? = some b) (hkey : key b = key a) :
    g.slotFor a = j := by
  unfold slotFor
  rw [slot_eq_some.2 ⟨b, hb, hkey⟩, Option.getD_some]

/-- A key keeps its slot. -/
theorem slot_enter (g : Register key) (a : α) (k : κ) :
    (g.enter a).slot k = if k = key a then some (g.slotFor a) else g.slot k := by
  apply Option.ext
  intro j
  rw [slot_eq_some]
  simp only [entries_enter]
  by_cases hk : k = key a
  · rw [if_pos hk, Option.some.injEq]
    constructor
    · rintro ⟨b, hb, rfl⟩
      split at hb
      · rename_i hj
        exact hj.symm
      · exact slotFor_of_key hb hk
    · rintro rfl
      exact ⟨a, if_pos rfl, hk.symm⟩
  · rw [if_neg hk, slot_eq_some]
    constructor
    · rintro ⟨b, hb, rfl⟩
      split at hb
      · cases hb
        exact absurd rfl hk
      · exact ⟨b, hb, rfl⟩
    · rintro ⟨b, hb, rfl⟩
      refine ⟨b, ?_, rfl⟩
      rw [if_neg, hb]
      rintro rfl
      -- the slot taken holds an entry of the same key or none at all
      unfold slotFor at hb
      cases hslot : g.slot (key a) with
      | some i =>
        obtain ⟨b', hb', hkey⟩ := slot_eq_some.1 hslot
        rw [hslot, Option.getD_some, hb'] at hb
        cases hb
        exact hk hkey
      | none =>
        rw [hslot, Option.getD_none] at hb
        exact absurd (List.getElem?_eq_some_iff.1 hb).1 (Nat.lt_irrefl _)

theorem mem_enter {g : Register key} {a b : α} : b ∈ (g.enter a).entries ↔ b = a ∨ (b ∈ g.entries ∧ key b ≠ key a) := by
  have hslot := slot_enter g a (key b)
  constructor
  · intro hb
    obtain ⟨j, hj⟩ := List.getElem?_of_mem hb
    rw [slot_eq_some.2 ⟨b, hj, rfl⟩] at hslot
    rw [entries_enter] at hj
    split at hj
    · cases hj
      exact .inl rfl
    · rename_i hne
      refine .inr ⟨List.mem_of_getElem? hj, fun hkey => ?_⟩
      rw [if_pos hkey] at hslot
      exact hne (Option.some.inj hslot)
  · rintro (rfl | ⟨hb, hkey⟩)
    · refine List.mem_of_getElem? (i := g.slotFor b) ?_
      rw [entries_enter, if_pos rfl]
    · obtain ⟨j, hj⟩ := List.getElem?_of_mem hb
      rw [if_neg hkey, slot_eq_some.2 ⟨b, hj, rfl⟩] at hslot
      obtain ⟨b', hb', hkey'⟩ := slot_eq_some.1 hslot
      rw [entries_enter] at hb'
      split at hb'
      · cases hb'
        exact absurd hkey'.symm hkey
      · rw [hj] at hb'
        cases hb'
        refine List.mem_of_getElem? (i := j) ?_
        rw [entries_enter, if_neg ‹_›, hj]

theorem get_enter (g : Register key) (a : α) (k : κ) : (g.enter a).get k = if k = key a then some a else g.get k := by
  apply Option.ext
  intro b
  rw [get_eq_some, mem_enter]
  split
  · rename_i hk
    rw [Option.some.injEq]
    constructor
    · rintro ⟨rfl | ⟨-, hne⟩, hkey⟩
      · rfl
      · exact absurd (hkey.trans hk) hne
    · rintro rfl
      exact ⟨.inl rfl, hk.symm⟩
  · rename_i hk
    rw [get_eq_some]
    constructor
    · rintro ⟨rfl | ⟨hb, -⟩, hkey⟩
      · exact absurd hkey.symm hk
      · exact ⟨hb, hkey⟩
    · rintro ⟨hb, rfl⟩
      exact ⟨.inr ⟨hb, hk⟩, rfl⟩

/-! ## Registers of lists -/

/-- The register of a list of versions, entered in their order. -/
def ofList (l : List α) : Register key := l.foldl enter empty

theorem ofList_concat (l : List α) (a : α) : (ofList (l ++ [a]) : Register key) = (ofList l).enter a := by
  unfold ofList
  rw [List.foldl_append, List.foldl_cons, List.foldl_nil]

/-- The last version of each key stands. -/
theorem get_ofList (l : List α) (k : κ) : (ofList l : Register key).get k = (l.filter fun a => key a = k).getLast? := by
  induction l using List.reverseRecOn with
  | nil => rfl
  | append_singleton l a ih =>
    rw [ofList_concat, get_enter, List.filter_append]
    by_cases hk : k = key a
    · rw [if_pos hk, List.filter_singleton, decide_eq_true hk.symm, cond_true, List.getLast?_concat]
    · rw [if_neg hk, List.filter_singleton, decide_eq_false (Ne.symm hk), cond_false, List.append_nil, ih]

end Register
