/-
Full binary hash trees over an arbitrary node function: the nodes above a family of leaves, the
path of siblings from a node to an ancestor and its fold, the walk that rewrites one path after a
leaf changes, and the binding of a folded path to the tree it reaches when the node function does
not collide on the pairs involved.
-/
import Mathlib.Algebra.BigOperators.Group.Finset.Basic
import Mathlib.Algebra.Order.BigOperators.Group.Finset
import Mathlib.Data.Nat.Bitwise
import Mathlib.Tactic

namespace HashTree

section

variable {α : Type} (node : α → α → α)

/-! ## Trees and paths -/

/-- Node `i` at level `l` of the full binary tree over `leaf`. -/
def fullNode (leaf : ℕ → α) : ℕ → ℕ → α
  | 0, i => leaf i
  | l + 1, i => node (fullNode leaf l (2 * i)) (fullNode leaf l (2 * i + 1))

/-- The root of a tree of depth `l` whose leaves are all `z`. -/
def emptyRoot (z : α) : ℕ → α
  | 0 => z
  | l + 1 => node (emptyRoot z l) (emptyRoot z l)

/-- The root of a tree of depth `l` with leaf `x` at index 0 and `z` elsewhere. -/
def singleRoot (x z : α) : ℕ → α
  | 0 => x
  | l + 1 => node (singleRoot x z l) (emptyRoot node z l)

/-- The other child of the parent of node `i`. -/
def sibling (i : ℕ) : ℕ := if i = i / 2 * 2 then i / 2 * 2 + 1 else i / 2 * 2

/-- The parent of `cur` and its sibling; `cur` is the right child when `bit` is set. -/
def join (bit : Bool) (cur sib : α) : α := if bit then node sib cur else node cur sib

/-- The fold of a path of siblings and direction bits over a node, bottom to top. -/
def foldPath : α → List (α × Bool) → α
  | cur, [] => cur
  | cur, (sib, bit) :: rest => foldPath (join node bit cur sib) rest

/-- The pairs the node function is applied to along a fold. -/
def foldPairs : α → List (α × Bool) → List (α × α)
  | _, [] => []
  | cur, (sib, bit) :: rest =>
    (if bit then (sib, cur) else (cur, sib)) :: foldPairs (join node bit cur sib) rest

/-- The pairs of children in a tree of depth `d`. -/
def treePairs (leaf : ℕ → α) (d : ℕ) : Set (α × α) :=
  {p | ∃ l i, l < d ∧ i < 2 ^ (d - (l + 1)) ∧ p = (fullNode node leaf l (2 * i), fullNode node leaf l (2 * i + 1))}

end

/-- The `n` siblings and direction bits above node `i` at level `l`, read from the nodes `N`. -/
def path {α : Type} (N : ℕ → ℕ → α) : ℕ → ℕ → ℕ → List (α × Bool)
  | 0, _, _ => []
  | n + 1, l, i => (N l (sibling i), i % 2 = 1) :: path N n (l + 1) (i / 2)

/-- The index of the node from which `bits`, bottom to top, lead to node `k`. -/
def bitsIndex : List Bool → ℕ → ℕ
  | [], k => k
  | b :: rest, k => 2 * bitsIndex rest k + b.toNat

section

variable {α : Type} {node : α → α → α}

theorem sibling_even {i : ℕ} (h : i % 2 = 0) : sibling i = i + 1 := by
  unfold sibling; rw [if_pos (by omega)]; omega

theorem sibling_odd {i : ℕ} (h : i % 2 = 1) : sibling i = i - 1 := by
  unfold sibling; rw [if_neg (by omega)]; omega

theorem sibling_ne (i : ℕ) : sibling i ≠ i := by
  unfold sibling; split <;> omega

@[simp] theorem path_length {N : ℕ → ℕ → α} : ∀ n l i, (path N n l i).length = n
  | 0, _, _ => rfl
  | n + 1, l, i => by simp [path, path_length n]

theorem path_getElem? {N : ℕ → ℕ → α} : ∀ n l i k, k < n →
    (path N n l i)[k]? = some (N (l + k) (sibling (i / 2 ^ k)), decide (i / 2 ^ k % 2 = 1))
  | n + 1, l, i, 0, _ => by simp [path]
  | n + 1, l, i, k + 1, h => by
    simp only [path, List.getElem?_cons_succ]
    rw [path_getElem? n (l + 1) (i / 2) k (by omega), Nat.div_div_eq_div_mul, ← pow_succ', Nat.add_right_comm,
      Nat.add_assoc]

theorem path_take {N : ℕ → ℕ → α} : ∀ {d n : ℕ} l i, d ≤ n → (path N n l i).take d = path N d l i
  | 0, _, _, _, _ => rfl
  | d + 1, n + 1, l, i, h => by
    simp only [path, List.take_succ_cons]
    rw [path_take (l + 1) (i / 2) (Nat.le_of_succ_le_succ h)]

/-- The bits of a path do not depend on the nodes. -/
theorem path_bits (N N' : ℕ → ℕ → α) : ∀ n l i, (path N n l i).map Prod.snd = (path N' n l i).map Prod.snd
  | 0, _, _ => rfl
  | n + 1, l, i => by
    simp only [path, List.map_cons]
    rw [path_bits N N' n]

theorem path_congr {N N' : ℕ → ℕ → α} : ∀ n l i,
    (∀ k < n, N (l + k) (sibling (i / 2 ^ k)) = N' (l + k) (sibling (i / 2 ^ k))) → path N n l i = path N' n l i
  | 0, _, _, _ => rfl
  | n + 1, l, i, h => by
    have h0 := h 0 (by omega)
    simp only [Nat.add_zero, pow_zero, Nat.div_one] at h0
    have hr : path N n (l + 1) (i / 2) = path N' n (l + 1) (i / 2) := path_congr n _ _ fun k hk => by
      have := h (k + 1) (by omega)
      rwa [pow_succ', ← Nat.div_div_eq_div_mul, show l + (k + 1) = l + 1 + k by omega] at this
    simp only [path, h0, hr]

theorem foldPath_append : ∀ (ps qs : List (α × Bool)) (cur : α),
    foldPath node cur (ps ++ qs) = foldPath node (foldPath node cur ps) qs
  | [], _, _ => rfl
  | (sib, bit) :: ps, qs, cur => foldPath_append ps qs (join node bit cur sib)

theorem foldPairs_append : ∀ (ps qs : List (α × Bool)) (cur : α),
    foldPairs node cur (ps ++ qs) = foldPairs node cur ps ++ foldPairs node (foldPath node cur ps) qs
  | [], _, _ => rfl
  | (sib, bit) :: ps, qs, cur => by
    simp only [List.cons_append, foldPairs, foldPath]
    rw [foldPairs_append ps qs]

/-- Leaf 0 folds over the roots of the empty subtrees beside it. -/
theorem foldPath_single (x z : α) : ∀ n, foldPath node x ((List.range n).map fun l => (emptyRoot node z l, false)) =
    singleRoot node x z n
  | 0 => rfl
  | n + 1 => by
    rw [List.range_succ, List.map_append, foldPath_append, foldPath_single x z n]
    rfl

/-! ## Authentication -/

theorem join_child (leaf : ℕ → α) (l i : ℕ) :
    join node (decide (i % 2 = 1)) (fullNode node leaf l i) (fullNode node leaf l (sibling i)) =
      fullNode node leaf (l + 1) (i / 2) := by
  unfold join
  rcases Nat.mod_two_eq_zero_or_one i with h | h
  · rw [sibling_even h, fullNode, show 2 * (i / 2) = i by omega]
    simp [h]
  · rw [sibling_odd h, fullNode, show 2 * (i / 2) + 1 = i by omega, show 2 * (i / 2) = i - 1 by omega]
    simp [h]

/-- Folding the siblings of a tree over one of its nodes gives its ancestor. -/
theorem foldPath_fullNode (leaf : ℕ → α) : ∀ n l i,
    foldPath node (fullNode node leaf l i) (path (fullNode node leaf) n l i) = fullNode node leaf (l + n) (i / 2 ^ n)
  | 0, l, i => by simp [path, foldPath]
  | n + 1, l, i => by
    simp only [path, foldPath]
    rw [join_child, foldPath_fullNode leaf n, Nat.div_div_eq_div_mul, ← pow_succ', Nat.add_right_comm, Nat.add_assoc]

/-- The pairs along the tree's own path are pairs of the tree. -/
theorem foldPairs_path (leaf : ℕ → α) {d : ℕ} : ∀ n l i, l + n ≤ d → i < 2 ^ (d - l) →
    ∀ p ∈ foldPairs node (fullNode node leaf l i) (path (fullNode node leaf) n l i), p ∈ treePairs node leaf d
  | 0, _, _, _, _, _, hp => by cases hp
  | n + 1, l, i, hl, hi, p, hp => by
    have hhalf : i / 2 < 2 ^ (d - (l + 1)) := by
      have hpow : 2 ^ (d - l) = 2 * 2 ^ (d - (l + 1)) := by rw [← pow_succ', show d - l = d - (l + 1) + 1 by omega]
      omega
    simp only [path, foldPairs, join_child] at hp
    rcases List.mem_cons.1 hp with rfl | hp
    · refine ⟨l, i / 2, by omega, hhalf, ?_⟩
      rcases Nat.mod_two_eq_zero_or_one i with h | h
      · rw [if_neg (by simp [h]), sibling_even h, show 2 * (i / 2) = i by omega]
      · rw [if_pos (by simp [h]), sibling_odd h, show 2 * (i / 2) + 1 = i by omega, show 2 * (i / 2) = i - 1 by omega]
    · exact foldPairs_path leaf n (l + 1) (i / 2) (by omega) hhalf p hp

/-- A node depends only on the leaves below it. -/
theorem fullNode_congr {leaf leaf' : ℕ → α} : ∀ l i, (∀ j, j / 2 ^ l = i → leaf j = leaf' j) →
    fullNode node leaf l i = fullNode node leaf' l i
  | 0, i, h => h i (by simp)
  | l + 1, i, h => by
    have hc : ∀ c, c / 2 = i → ∀ j, j / 2 ^ l = c → leaf j = leaf' j := fun c hc j hj =>
      h j (by rw [pow_succ, ← Nat.div_div_eq_div_mul, hj, hc])
    simp only [fullNode]
    rw [fullNode_congr l _ (hc _ (by omega)), fullNode_congr l _ (hc _ (by omega))]

theorem fullNode_const (z : α) : ∀ l i, fullNode node (fun _ => z) l i = emptyRoot node z l
  | 0, _ => rfl
  | l + 1, i => by simp only [fullNode, emptyRoot, fullNode_const z l]

theorem singleRoot_self (z : α) : ∀ l, singleRoot node z z l = emptyRoot node z l
  | 0 => rfl
  | l + 1 => by rw [singleRoot, emptyRoot, singleRoot_self z l]

theorem fullNode_single (x z : α) : ∀ l i, fullNode node (fun j => if j = 0 then x else z) l i =
    if i = 0 then singleRoot node x z l else emptyRoot node z l
  | 0, i => rfl
  | l + 1, i => by
    have hright : ¬ 2 * i + 1 = 0 := by omega
    rw [fullNode, fullNode_single x z l, fullNode_single x z l, if_neg hright]
    by_cases hi : i = 0
    · rw [if_pos hi, if_pos (by omega), singleRoot]
    · rw [if_neg hi, if_neg (by omega), emptyRoot]

/-- A subtree whose first leaf is `x` and whose others are `z`. -/
theorem fullNode_first {leaf : ℕ → α} {x z : α} : ∀ l i, leaf (2 ^ l * i) = x →
    (∀ j, j / 2 ^ l = i → j ≠ 2 ^ l * i → leaf j = z) → fullNode node leaf l i = singleRoot node x z l
  | 0, i, hx, _ => by
    rw [pow_zero, Nat.one_mul] at hx
    exact hx
  | l + 1, i, hx, hz => by
    have hpow : 2 ^ (l + 1) * i = 2 ^ l * (2 * i) := by rw [pow_succ, Nat.mul_assoc]
    have hpos : 0 < 2 ^ l := Nat.two_pow_pos l
    have hbelow : ∀ c j, c / 2 = i → j / 2 ^ l = c → j / 2 ^ (l + 1) = i := fun c j hc hj => by
      rw [pow_succ, ← Nat.div_div_eq_div_mul, hj, hc]
    rw [hpow] at hx hz
    have hleft := fullNode_first l (2 * i) hx fun j hj hne => hz j (hbelow _ j (by omega) hj) hne
    have hright : fullNode node leaf l (2 * i + 1) = fullNode node (fun _ => z) l (2 * i + 1) := by
      refine fullNode_congr l _ fun j hj => hz j (hbelow _ j (by omega) hj) ?_
      rintro rfl
      rw [Nat.mul_div_cancel_left _ hpos] at hj
      omega
    rw [fullNode, hleft, hright, fullNode_const, singleRoot]

/-! ## Rewriting a path -/

/-- The nodes with one of them replaced. -/
def setNode (N : ℕ → ℕ → α) (l i : ℕ) (x : α) : ℕ → ℕ → α :=
  fun l' i' => if l' = l ∧ i' = i then x else N l' i'

/-- A path does not read the node it starts at. -/
theorem path_setNode (N : ℕ → ℕ → α) (l i : ℕ) (x : α) (m : ℕ) : path (setNode N l i x) m l i = path N m l i := by
  refine path_congr m l i fun k _ => ?_
  unfold setNode
  rw [if_neg]
  rintro ⟨h1, h2⟩
  have hk : k = 0 := by omega
  subst hk
  simp only [pow_zero, Nat.div_one] at h2
  exact sibling_ne _ h2

variable (node) in
/-- The walk from node `i` at level `l` up `n` levels that writes, at each level, the parent of
the current node and its stored sibling. -/
def rewrite : ℕ → (ℕ → ℕ → α) → ℕ → ℕ → α → (ℕ → ℕ → α) × α
  | 0, N, _, _, cur => (N, cur)
  | n + 1, N, l, i, cur =>
    let cur' := join node (decide (i % 2 = 1)) cur (N l (sibling i))
    rewrite n (setNode N (l + 1) (i / 2) cur') (l + 1) (i / 2) cur'

/-- The walk never reads what it wrote: its result is the fold over the siblings it started from. -/
theorem rewrite_snd : ∀ n (N : ℕ → ℕ → α) l i cur,
    (rewrite node n N l i cur).2 = foldPath node cur (path N n l i)
  | 0, _, _, _, _ => rfl
  | n + 1, N, l, i, cur => by
    simp only [rewrite, path, foldPath]
    rw [rewrite_snd n, path_setNode]

/-- The walk writes exactly the ancestors of its first node. -/
theorem rewrite_fst : ∀ n (N : ℕ → ℕ → α) l i cur l' i',
    (rewrite node n N l i cur).1 l' i' =
      if l < l' ∧ l' ≤ l + n ∧ i' = i / 2 ^ (l' - l) then foldPath node cur (path N (l' - l) l i) else N l' i'
  | 0, N, l, i, cur, l', i' => by
    rw [if_neg (by omega)]; rfl
  | n + 1, N, l, i, cur, l', i' => by
    simp only [rewrite]
    rw [rewrite_fst n, path_setNode]
    unfold setNode
    -- below, at and above the level this step writes
    rcases Nat.lt_trichotomy l' (l + 1) with hl | rfl | hl
    · rw [if_neg (by omega), if_neg (by omega), if_neg (by omega)]
    · rw [if_neg (by omega), show l + 1 - l = 1 by omega, pow_one]
      by_cases hi : i' = i / 2
      · rw [if_pos ⟨rfl, hi⟩, if_pos ⟨by omega, by omega, hi⟩]; rfl
      · rw [if_neg (by tauto), if_neg (by tauto)]
    · obtain ⟨k, rfl⟩ : ∃ k, l' = l + (k + 2) := ⟨l' - l - 2, by omega⟩
      rw [show l + (k + 2) - (l + 1) = k + 1 by omega, show l + (k + 2) - l = k + 1 + 1 by omega,
        Nat.div_div_eq_div_mul, ← pow_succ']
      by_cases hi : l + (k + 2) ≤ l + (n + 1) ∧ i' = i / 2 ^ (k + 1 + 1)
      · rw [if_pos ⟨hl, by omega, hi.2⟩, if_pos ⟨by omega, hi.1, hi.2⟩]; rfl
      · rw [if_neg (by rintro ⟨-, h1, h2⟩; exact hi ⟨by omega, h2⟩), if_neg (by omega),
          if_neg (by rintro ⟨-, h1, h2⟩; exact hi ⟨h1, h2⟩)]

/-- A node that is not an ancestor of leaf `j` does not change with it. -/
theorem fullNode_update_of_ne (leaf : ℕ → α) (j : ℕ) (x : α) {l i : ℕ} (h : i ≠ j / 2 ^ l) :
    fullNode node (Function.update leaf j x) l i = fullNode node leaf l i := by
  refine fullNode_congr l i fun k hk => Function.update_of_ne ?_ _ _
  rintro rfl
  exact h hk.symm

/-- The ancestor of a changed leaf is the fold of the new leaf over the unchanged siblings. -/
theorem fullNode_update_ancestor (leaf : ℕ → α) (j : ℕ) (x : α) (l : ℕ) :
    fullNode node (Function.update leaf j x) l (j / 2 ^ l) = foldPath node x (path (fullNode node leaf) l 0 j) := by
  have h : foldPath node _ _ = _ := foldPath_fullNode (Function.update leaf j x) l 0 j
  rw [Nat.zero_add, fullNode, Function.update_self] at h
  rw [← h]
  congr 1
  refine path_congr l 0 j fun k _ => ?_
  rw [Nat.zero_add]
  exact fullNode_update_of_ne leaf j x (sibling_ne _)

/-! ## Where two paths meet -/

/-- Bit `d` is the highest in which two indices differ. -/
structure HighestDiff (i j d : ℕ) : Prop where
  differ : i.testBit d ≠ j.testBit d
  above : ∀ k > d, i.testBit k = j.testBit k

theorem exists_highestDiff {i j : ℕ} (h : i ≠ j) : ∃ d, HighestDiff i j d := by
  have hx : i ^^^ j ≠ 0 := fun h0 => h (by
    apply Nat.eq_of_testBit_eq
    intro k
    have hk := congrArg (Nat.testBit · k) h0
    simpa using hk)
  obtain ⟨d, hd, habove⟩ := Nat.exists_most_significant_bit hx
  rw [Nat.testBit_xor] at hd
  refine ⟨d, fun he => ?_, fun k hk => ?_⟩
  · rw [he, Bool.xor_self] at hd
    cases hd
  · have := habove k hk
    rw [Nat.testBit_xor] at this
    simpa using this

/-- The ancestors of two leaves agree above the highest bit in which their indices differ. -/
theorem HighestDiff.div_eq_iff {i j d : ℕ} (h : HighestDiff i j d) (l : ℕ) : i / 2 ^ l = j / 2 ^ l ↔ d < l := by
  constructor
  · intro heq
    by_contra hl
    obtain ⟨k, rfl⟩ := Nat.exists_eq_add_of_le (not_lt.1 hl)
    refine h.differ ?_
    rw [Nat.add_comm, ← Nat.testBit_div_two_pow, ← Nat.testBit_div_two_pow, heq]
  · intro hl
    apply Nat.eq_of_testBit_eq
    intro k
    rw [Nat.testBit_div_two_pow, Nat.testBit_div_two_pow]
    exact h.above _ (by omega)

theorem HighestDiff.lt {i j d n : ℕ} (h : HighestDiff i j d) (hi : i < 2 ^ n) (hj : j < 2 ^ n) : d < n := by
  rw [← h.div_eq_iff, Nat.div_eq_of_lt hi, Nat.div_eq_of_lt hj]

theorem sibling_eq_iff {i j : ℕ} : sibling j = i ↔ i / 2 = j / 2 ∧ i ≠ j := by
  unfold sibling
  split <;> omega

/-- The path of one leaf passes through a sibling of the other's at the level of that bit only. -/
theorem HighestDiff.sibling_iff {i j d : ℕ} (h : HighestDiff i j d) (l : ℕ) :
    sibling (j / 2 ^ l) = i / 2 ^ l ↔ l = d := by
  rw [sibling_eq_iff, Nat.div_div_eq_div_mul, Nat.div_div_eq_div_mul, ← pow_succ, ne_eq, h.div_eq_iff, h.div_eq_iff]
  omega

/-- Setting leaf `i` changes one sibling above leaf `j`, to the fold of the new leaf up to it. -/
theorem fullNode_update_sibling (leaf : ℕ → α) {i j d : ℕ} (h : HighestDiff i j d) (x : α) (l : ℕ) :
    fullNode node (Function.update leaf i x) l (sibling (j / 2 ^ l)) =
      if l = d then foldPath node x (path (fullNode node leaf) d 0 i) else fullNode node leaf l (sibling (j / 2 ^ l)) := by
  by_cases hl : l = d
  · rw [if_pos hl, (h.sibling_iff l).2 hl, fullNode_update_ancestor, hl]
  · rw [if_neg hl, fullNode_update_of_ne]
    rwa [ne_eq, h.sibling_iff]

/-- The walk ends with the node it wrote last, the ancestor of its first node. -/
theorem rewrite_top {n : ℕ} (hn : 0 < n) (N : ℕ → ℕ → α) (l i : ℕ) (cur : α) :
    (rewrite node n N l i cur).1 (l + n) (i / 2 ^ n) = (rewrite node n N l i cur).2 := by
  rw [rewrite_fst, rewrite_snd, Nat.add_sub_cancel_left, if_pos ⟨by omega, le_rfl, rfl⟩]

/-- Nodes that are those of the full tree up to level `d` become, after leaf `j` is set and its
path rewritten, those of the tree with that leaf. -/
theorem rewrite_insert {N : ℕ → ℕ → α} {leaf : ℕ → α} {d : ℕ}
    (hN : ∀ l ≤ d, ∀ i, N l i = fullNode node leaf l i) (j : ℕ) (x : α) {l : ℕ} (hl : l ≤ d) (i : ℕ) :
    (rewrite node d (setNode N 0 j x) 0 j x).1 l i = fullNode node (Function.update leaf j x) l i := by
  have hpath : path (setNode N 0 j x) l 0 j = path (fullNode node leaf) l 0 j :=
    (path_setNode N 0 j x l).trans (path_congr l 0 j fun k hk => hN _ (by omega) _)
  rw [rewrite_fst, Nat.sub_zero, hpath]
  by_cases hi : i = j / 2 ^ l
  · subst hi
    rw [fullNode_update_ancestor]
    rcases Nat.eq_zero_or_pos l with rfl | hl0
    · rw [if_neg (by omega)]; simp [setNode, path, foldPath]
    · rw [if_pos ⟨hl0, by omega, rfl⟩]
  · rw [if_neg (by tauto), fullNode_update_of_ne leaf j x hi]
    unfold setNode
    rw [if_neg, hN l hl]
    rintro ⟨rfl, rfl⟩
    simp at hi

/-! ## Binding -/

theorem bitsIndex_lt : ∀ (bits : List Bool) (k : ℕ), bitsIndex bits k < 2 ^ bits.length * (k + 1)
  | [], k => by simp [bitsIndex]
  | b :: rest, k => by
    have := bitsIndex_lt rest k
    simp only [bitsIndex, List.length_cons, pow_succ]
    rcases b <;> simp only [Bool.toNat_true, Bool.toNat_false] <;> nlinarith

/-- A path of any siblings that folds to a node of the tree starts from the tree's own node below
it, when the node function does not collide on the pairs of the fold and of the tree. -/
theorem foldPath_binding {S : Set (α × α)} (hinj : S.InjOn fun p => node p.1 p.2) {leaf : ℕ → α} {d : ℕ}
    (hT : treePairs node leaf d ⊆ S) : ∀ (ps : List (α × Bool)) (cur : α) (l k : ℕ),
    (∀ p ∈ foldPairs node cur ps, p ∈ S) → l + ps.length ≤ d → k < 2 ^ (d - (l + ps.length)) →
    foldPath node cur ps = fullNode node leaf (l + ps.length) k →
    cur = fullNode node leaf l (bitsIndex (ps.map Prod.snd) k)
  | [], cur, l, k, _, _, _, h => by simpa [foldPath, bitsIndex] using h
  | (sib, bit) :: rest, cur, l, k, hS, hl, hk, h => by
    simp only [List.length_cons] at hl hk h
    have hup := foldPath_binding hinj hT rest (join node bit cur sib) (l + 1) k
      (fun p hp => hS p (List.mem_cons_of_mem _ hp)) (by omega)
      (by rwa [show l + 1 + rest.length = l + (rest.length + 1) by omega])
      (by rw [show l + 1 + rest.length = l + (rest.length + 1) by omega]; exact h)
    -- the parent is a node of the tree, so its pair of children is one of the tree's
    have hidx : bitsIndex (rest.map Prod.snd) k < 2 ^ (d - (l + 1)) := by
      have hb := bitsIndex_lt (rest.map Prod.snd) k
      rw [List.length_map] at hb
      calc bitsIndex (rest.map Prod.snd) k < 2 ^ rest.length * (k + 1) := hb
        _ ≤ 2 ^ rest.length * 2 ^ (d - (l + (rest.length + 1))) := Nat.mul_le_mul_left _ hk
        _ = 2 ^ (d - (l + 1)) := by rw [← pow_add]; congr 1; omega
    have hmem := hS _ (List.mem_cons_self ..)
    have htree : (fullNode node leaf l (2 * bitsIndex (rest.map Prod.snd) k),
        fullNode node leaf l (2 * bitsIndex (rest.map Prod.snd) k + 1)) ∈ S :=
      hT ⟨l, _, by omega, hidx, rfl⟩
    simp only [List.map_cons, bitsIndex]
    cases bit with
    | true =>
      simp only [join, if_true, fullNode] at hup hmem
      have := hinj hmem htree hup
      exact (Prod.mk.inj this).2
    | false =>
      simp only [join, Bool.false_eq_true, if_false, fullNode] at hup hmem
      have := hinj hmem htree hup
      simpa using (Prod.mk.inj this).1

theorem sibling_child (k : ℕ) (b : Bool) : sibling (2 * k + b.toNat) = 2 * k + (!b).toNat := by
  unfold sibling
  cases b <;> simp only [Bool.toNat_true, Bool.toNat_false, Bool.not_true, Bool.not_false] <;> split <;> omega

/-- Such a path has the tree's own siblings. -/
theorem foldPath_siblings {S : Set (α × α)} (hinj : S.InjOn fun p => node p.1 p.2) {leaf : ℕ → α} {d : ℕ}
    (hT : treePairs node leaf d ⊆ S) : ∀ (ps : List (α × Bool)) (cur : α) (l k : ℕ),
    (∀ p ∈ foldPairs node cur ps, p ∈ S) → l + ps.length ≤ d → k < 2 ^ (d - (l + ps.length)) →
    foldPath node cur ps = fullNode node leaf (l + ps.length) k →
    ps = path (fullNode node leaf) ps.length l (bitsIndex (ps.map Prod.snd) k)
  | [], _, _, _, _, _, _, _ => rfl
  | (sib, bit) :: rest, cur, l, k, hS, hl, hk, h => by
    have hlen : l + 1 + rest.length = l + (rest.length + 1) := by omega
    simp only [List.length_cons] at hl hk h
    have hup : ∀ p ∈ foldPairs node (join node bit cur sib) rest, p ∈ S := fun p hp => hS p (List.mem_cons_of_mem _ hp)
    have hparent := foldPath_binding hinj hT rest _ (l + 1) k hup (by omega) (hlen ▸ hk) (hlen ▸ h)
    have hrest := foldPath_siblings hinj hT rest _ (l + 1) k hup (by omega) (hlen ▸ hk) (hlen ▸ h)
    have hidx : bitsIndex (rest.map Prod.snd) k < 2 ^ (d - (l + 1)) := by
      have hb := bitsIndex_lt (rest.map Prod.snd) k
      rw [List.length_map] at hb
      calc bitsIndex (rest.map Prod.snd) k < 2 ^ rest.length * (k + 1) := hb
        _ ≤ 2 ^ rest.length * 2 ^ (d - (l + (rest.length + 1))) := Nat.mul_le_mul_left _ hk
        _ = 2 ^ (d - (l + 1)) := by rw [← pow_add]; congr 1; omega
    obtain ⟨j, hj⟩ : ∃ j, j = bitsIndex (rest.map Prod.snd) k := ⟨_, rfl⟩
    rw [← hj] at hparent hrest hidx
    have htree : (fullNode node leaf l (2 * j), fullNode node leaf l (2 * j + 1)) ∈ S := hT ⟨l, _, by omega, hidx, rfl⟩
    have hmem := hS _ List.mem_cons_self
    have hsib : sib = fullNode node leaf l (sibling (2 * j + bit.toNat)) := by
      rw [sibling_child]
      cases bit with
      | true => exact (Prod.mk.inj (hinj hmem htree hparent)).1
      | false => exact (Prod.mk.inj (hinj hmem htree hparent)).2
    have hbit : decide ((2 * j + bit.toNat) % 2 = 1) = bit := by
      cases bit with
      | true => exact decide_eq_true (by simp)
      | false => exact decide_eq_false (by simp)
    have hdiv : (2 * j + bit.toNat) / 2 = j := by
      have := bit.toNat_lt
      omega
    simp only [List.map_cons, bitsIndex, List.length_cons, path, ← hj]
    rw [← hsib, hbit, hdiv, ← hrest]

/-- A path of the depth of the tree folds to its root exactly when it is the tree's own, over a leaf of it. -/
theorem foldPath_eq_root_iff {S : Set (α × α)} (hinj : S.InjOn fun p => node p.1 p.2) {leaf : ℕ → α} {d : ℕ}
    (hT : treePairs node leaf d ⊆ S) {ps : List (α × Bool)} {cur : α} (hS : ∀ p ∈ foldPairs node cur ps, p ∈ S)
    (hlen : ps.length = d) :
    foldPath node cur ps = fullNode node leaf d 0 ↔ ∃ i < 2 ^ d, cur = leaf i ∧ ps = path (fullNode node leaf) d 0 i := by
  constructor
  · intro h
    have hroot : foldPath node cur ps = fullNode node leaf (0 + ps.length) 0 := by rw [Nat.zero_add, hlen, h]
    have hpos : 0 < 2 ^ (d - (0 + ps.length)) := Nat.two_pow_pos _
    have hcur := foldPath_binding hinj hT ps cur 0 0 hS (by omega) hpos hroot
    have hps := foldPath_siblings hinj hT ps cur 0 0 hS (by omega) hpos hroot
    have hlt := bitsIndex_lt (ps.map Prod.snd) 0
    rw [List.length_map, hlen, Nat.zero_add, Nat.mul_one] at hlt
    rw [hlen] at hps
    exact ⟨_, hlt, hcur, hps⟩
  · rintro ⟨i, hi, rfl, rfl⟩
    have h : foldPath node (leaf i) _ = _ := foldPath_fullNode leaf d 0 i
    rwa [Nat.zero_add, Nat.div_eq_of_lt hi] at h

/-- Two trees with one root have the same leaves, when the node function does not collide on their pairs. -/
theorem leaves_of_root {S : Set (α × α)} (hinj : S.InjOn fun p => node p.1 p.2) (leaf leaf' : ℕ → α) (d : ℕ)
    (hT : treePairs node leaf d ⊆ S) (hT' : treePairs node leaf' d ⊆ S)
    (hroot : fullNode node leaf d 0 = fullNode node leaf' d 0) : ∀ i < 2 ^ d, leaf i = leaf' i := by
  -- from the root down, level by level
  have hlevel : ∀ k ≤ d, ∀ i < 2 ^ k, fullNode node leaf (d - k) i = fullNode node leaf' (d - k) i := by
    intro k
    induction k with
    | zero =>
      intro _ i hi
      rw [Nat.lt_one_iff.1 hi]
      exact hroot
    | succ k ih =>
      intro hk i hi
      have hparent := ih (Nat.le_of_succ_le hk) (i / 2) (by omega)
      rw [show d - k = d - (k + 1) + 1 by omega] at hparent
      have hrange : i / 2 < 2 ^ (d - (d - (k + 1) + 1)) := by rw [show d - (d - (k + 1) + 1) = k by omega]; omega
      have hpair := hinj (hT ⟨_, _, by omega, hrange, rfl⟩) (hT' ⟨_, _, by omega, hrange, rfl⟩) hparent
      rcases Nat.mod_two_eq_zero_or_one i with h | h
      · have := (Prod.mk.inj hpair).1
        rwa [show 2 * (i / 2) = i by omega] at this
      · have := (Prod.mk.inj hpair).2
        rwa [show 2 * (i / 2) + 1 = i by omega] at this
  intro i hi
  have := hlevel d le_rfl i hi
  rwa [Nat.sub_self] at this

end

/-! ## The ancestors of a range of leaves -/

/-- The nodes up to level `d` above the first `n` leaves. -/
def ancestors (d n : ℕ) : Finset (ℕ × ℕ) :=
  (Finset.range (d + 1)).biUnion fun l => (Finset.range ((n + 2 ^ l - 1) / 2 ^ l)).image fun i => (l, i)

theorem mem_ancestors {d n l i : ℕ} : (l, i) ∈ ancestors d n ↔ l ≤ d ∧ ∃ j < n, i = j / 2 ^ l := by
  have hpos : 0 < 2 ^ l := Nat.two_pow_pos l
  simp only [ancestors, Finset.mem_biUnion, Finset.mem_image, Finset.mem_range, Prod.mk.injEq]
  constructor
  · rintro ⟨l, hl, i, hi, rfl, rfl⟩
    have hle := (Nat.le_div_iff_mul_le hpos).1 (Nat.succ_le_of_lt hi)
    rw [Nat.succ_mul] at hle
    exact ⟨by omega, i * 2 ^ l, by omega, (Nat.mul_div_cancel i hpos).symm⟩
  · rintro ⟨hl, j, hj, rfl⟩
    refine ⟨l, by omega, j / 2 ^ l, ?_, rfl, rfl⟩
    have hmul := Nat.div_mul_le_self j (2 ^ l)
    apply Nat.lt_of_succ_le
    rw [Nat.le_div_iff_mul_le hpos, Nat.succ_mul]
    omega

theorem card_ancestors (d n : ℕ) : (ancestors d n).card = ∑ l ∈ Finset.range (d + 1), (n + 2 ^ l - 1) / 2 ^ l := by
  unfold ancestors
  rw [Finset.card_biUnion]
  · refine Finset.sum_congr rfl fun l _ => ?_
    rw [Finset.card_image_of_injective _ fun i j h => (Prod.mk.inj h).2, Finset.card_range]
  · intro l _ l' _ hne
    rw [Function.onFun, Finset.disjoint_left]
    rintro _ hx hx'
    obtain ⟨i, -, rfl⟩ := Finset.mem_image.1 hx
    obtain ⟨j, -, h⟩ := Finset.mem_image.1 hx'
    exact hne (Prod.mk.inj h).1.symm

/-- There are about two for each leaf. -/
theorem card_ancestors_le (d n : ℕ) : (ancestors d n).card ≤ 2 * n + (d + 1) := by
  have hhalves : ∀ k, ∑ l ∈ Finset.range k, n / 2 ^ l + 2 * (n / 2 ^ k) ≤ 2 * n := by
    intro k
    induction k with
    | zero => simp
    | succ k ih =>
      rw [Finset.sum_range_succ, pow_succ, ← Nat.div_div_eq_div_mul]
      omega
  have hceil : ∀ l ∈ Finset.range (d + 1), (n + 2 ^ l - 1) / 2 ^ l ≤ n / 2 ^ l + 1 := by
    intro l _
    have hpos : 0 < 2 ^ l := Nat.two_pow_pos l
    rw [← Nat.add_div_right n hpos]
    exact Nat.div_le_div_right (Nat.sub_le _ 1)
  have hsum := Finset.sum_le_sum hceil
  rw [Finset.sum_add_distrib, Finset.sum_const, Finset.card_range, smul_eq_mul, mul_one] at hsum
  have := hhalves (d + 1)
  rw [card_ancestors]
  omega

end HashTree
