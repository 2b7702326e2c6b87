/-
Runs of a labelled transition system with their history: a run is the list of its transitions in
order, each with the states before and after it. Invariants of states, invariants that also read
the history, the run up to and after any of its transitions, and pairs of runs with the same
observations.
-/
import Mathlib.Data.List.Basic

namespace Runs

/-- One transition of a run: the state before it, its label and the state after it. -/
structure Transition (σ ε : Type) where
  pre : σ
  label : ε
  post : σ

section

variable {σ ε : Type} (step : σ → ε → σ → Prop)

/-- `Run step s₀ tr s`: the transitions `tr`, in order, lead from `s₀` to `s`. -/
inductive Run (s₀ : σ) : List (Transition σ ε) → σ → Prop
  | nil : Run s₀ [] s₀
  | snoc {tr : List (Transition σ ε)} {s : σ} {e : ε} {s' : σ} :
      Run s₀ tr s → step s e s' → Run s₀ (tr ++ [⟨s, e, s'⟩]) s'

end

/-- The element at a position of a list with one element appended. -/
theorem getElem?_snoc {α : Type} {l : List α} {a b : α} {j : ℕ} (h : (l ++ [a])[j]? = some b) :
    (j < l.length ∧ l[j]? = some b) ∨ (j = l.length ∧ b = a) := by
  rcases Nat.lt_trichotomy j l.length with hlt | rfl | hgt
  · rw [List.getElem?_append_left hlt] at h
    exact .inl ⟨hlt, h⟩
  · rw [List.getElem?_append_right (Nat.le_refl _), Nat.sub_self] at h
    cases h
    exact .inr ⟨rfl, rfl⟩
  · rw [List.getElem?_eq_none (by simpa using Nat.succ_le_of_lt hgt)] at h
    cases h

namespace Run

variable {σ ε : Type} {step : σ → ε → σ → Prop} {s₀ : σ}

/-! ## Invariants -/

/-- A property of the initial state that every step keeps holds in every reached state. -/
theorem invariant {P : σ → Prop} {tr : List (Transition σ ε)} {s : σ} (h : Run step s₀ tr s)
    (h0 : P s₀) (hs : ∀ s e s', P s → step s e s' → P s') : P s := by
  induction h with
  | nil => exact h0
  | snoc _ hst ih => exact hs _ _ _ ih hst

/-- An invariant that also reads the transitions made so far. -/
theorem invariant_history {P : List (Transition σ ε) → σ → Prop} {tr : List (Transition σ ε)} {s : σ}
    (h : Run step s₀ tr s) (h0 : P [] s₀)
    (hs : ∀ tr s e s', Run step s₀ tr s → P tr s → step s e s' → P (tr ++ [⟨s, e, s'⟩]) s') : P tr s := by
  induction h with
  | nil => exact h0
  | snoc hr hst ih => exact hs _ _ _ _ hr ih hst

/-! ## Parts of a run -/

theorem append {tr tr' : List (Transition σ ε)} {s s' : σ} (h : Run step s₀ tr s) (h' : Run step s tr' s') :
    Run step s₀ (tr ++ tr') s' := by
  induction h' with
  | nil => simpa using h
  | snoc _ hst ih => rw [← List.append_assoc]; exact ih.snoc hst

/-- A property that holds at some point of a run, and that every later step keeps, holds at its end. -/
theorem invariant_from {P : List (Transition σ ε) → σ → Prop} {tr tr' : List (Transition σ ε)} {s s' : σ}
    (h : Run step s₀ tr s) (h' : Run step s tr' s') (hP : P tr s)
    (hs : ∀ tr s e s', Run step s₀ tr s → P tr s → step s e s' → P (tr ++ [⟨s, e, s'⟩]) s') : P (tr ++ tr') s' := by
  induction h' with
  | nil => simpa using hP
  | snoc hr hst ih =>
    rw [← List.append_assoc]
    exact hs _ _ _ _ (h.append hr) ih hst

/-- The transitions before the `j`-th lead to its state before, and the `j`-th is a step. -/
theorem before {tr : List (Transition σ ε)} {s : σ} (h : Run step s₀ tr s) {j : ℕ} {τ : Transition σ ε}
    (hj : tr[j]? = some τ) : Run step s₀ (tr.take j) τ.pre ∧ step τ.pre τ.label τ.post := by
  induction h with
  | nil => cases hj
  | @snoc tr s e s' hr hst ih =>
    rcases getElem?_snoc hj with ⟨hlt, hj⟩ | ⟨rfl, rfl⟩
    · rw [List.take_append_of_le_length (Nat.le_of_lt hlt)]
      exact ih hj
    · rw [List.take_left]
      exact ⟨hr, hst⟩

/-- The transitions after the `j`-th lead from its state after to the last state. -/
theorem after {tr : List (Transition σ ε)} {s : σ} (h : Run step s₀ tr s) {j : ℕ} {τ : Transition σ ε}
    (hj : tr[j]? = some τ) : Run step τ.post (tr.drop (j + 1)) s := by
  induction h with
  | nil => cases hj
  | @snoc tr s e s' hr hst ih =>
    rcases getElem?_snoc hj with ⟨hlt, hj⟩ | ⟨rfl, rfl⟩
    · rw [List.drop_append_of_le_length hlt]
      exact (ih hj).snoc hst
    · rw [List.drop_of_length_le (by simp)]
      exact .nil

/-- The run that ends with the `j`-th transition. -/
theorem upto {tr : List (Transition σ ε)} {s : σ} (h : Run step s₀ tr s) {j : ℕ} {τ : Transition σ ε}
    (hj : tr[j]? = some τ) : Run step s₀ (tr.take (j + 1)) τ.post := by
  obtain ⟨hb, hst⟩ := h.before hj
  have : tr.take (j + 1) = tr.take j ++ [τ] := by rw [List.take_add_one, hj]; rfl
  rw [this]
  exact hb.snoc hst

/-! ## Two runs with the same observations -/

/-- The observations of a list of transitions, in order. -/
def observed {ι : Type} (obs : ε → Option ι) (tr : List (Transition σ ε)) : List ι := tr.filterMap fun τ => obs τ.label

theorem observed_snoc {ι : Type} (obs : ε → Option ι) (tr : List (Transition σ ε)) (τ : Transition σ ε) :
    observed obs (tr ++ [τ]) = observed obs tr ++ (obs τ.label).toList := by
  unfold observed
  rw [List.filterMap_append]
  cases h : obs τ.label <;> simp [h]

/-- Two runs with the same observations are related by what unobserved steps of either keep and what
two steps with one observation keep. -/
theorem lockstep {ι : Type} {obs : ε → Option ι}
    {Q : List (Transition σ ε) → σ → List (Transition σ ε) → σ → Prop} {tr₁ tr₂ : List (Transition σ ε)} {s₁ s₂ : σ}
    (h₁ : Run step s₀ tr₁ s₁) (h₂ : Run step s₀ tr₂ s₂) (hobs : observed obs tr₁ = observed obs tr₂)
    (h0 : Q [] s₀ [] s₀)
    (hleft : ∀ tr₁ s₁ tr₂ s₂ e s', Run step s₀ tr₁ s₁ → Run step s₀ tr₂ s₂ → Q tr₁ s₁ tr₂ s₂ → step s₁ e s' →
      obs e = none → Q (tr₁ ++ [⟨s₁, e, s'⟩]) s' tr₂ s₂)
    (hright : ∀ tr₁ s₁ tr₂ s₂ e s', Run step s₀ tr₁ s₁ → Run step s₀ tr₂ s₂ → Q tr₁ s₁ tr₂ s₂ → step s₂ e s' →
      obs e = none → Q tr₁ s₁ (tr₂ ++ [⟨s₂, e, s'⟩]) s')
    (hboth : ∀ tr₁ s₁ tr₂ s₂ e₁ s₁' e₂ s₂' i, Run step s₀ tr₁ s₁ → Run step s₀ tr₂ s₂ → Q tr₁ s₁ tr₂ s₂ →
      step s₁ e₁ s₁' → step s₂ e₂ s₂' → obs e₁ = some i → obs e₂ = some i →
      Q (tr₁ ++ [⟨s₁, e₁, s₁'⟩]) s₁' (tr₂ ++ [⟨s₂, e₂, s₂'⟩]) s₂') :
    Q tr₁ s₁ tr₂ s₂ := by
  induction h₁ generalizing tr₂ s₂ with
  | nil =>
    induction h₂ with
    | nil => exact h0
    | @snoc tr s e s' hr hst ih =>
      rw [observed_snoc] at hobs
      obtain ⟨htr, he⟩ := List.append_eq_nil_iff.1 hobs.symm
      exact hright _ _ _ _ _ _ .nil hr (ih htr.symm) hst (Option.toList_eq_nil_iff.1 he)
  | @snoc tr₁ s₁ e₁ s₁' hr₁ hst₁ ih₁ =>
    rw [observed_snoc] at hobs
    cases he₁ : obs e₁ with
    | none =>
      rw [he₁, Option.toList_none, List.append_nil] at hobs
      exact hleft _ _ _ _ _ _ hr₁ h₂ (ih₁ h₂ hobs) hst₁ he₁
    | some i =>
      rw [he₁, Option.toList_some] at hobs
      -- the second run ends with unobserved steps after one with the same observation
      induction h₂ with
      | nil => simp [observed] at hobs
      | @snoc tr₂ s₂ e₂ s₂' hr₂ hst₂ ih₂ =>
        rw [observed_snoc] at hobs
        cases he₂ : obs e₂ with
        | none =>
          rw [he₂, Option.toList_none, List.append_nil] at hobs
          exact hright _ _ _ _ _ _ (hr₁.snoc hst₁) hr₂ (ih₂ hobs) hst₂ he₂
        | some j =>
          rw [he₂, Option.toList_some] at hobs
          obtain ⟨htr, hij⟩ := List.append_inj' hobs rfl
          cases hij
          exact hboth _ _ _ _ _ _ _ _ i hr₁ hr₂ (ih₁ hr₂ htr) hst₁ hst₂ he₁ he₂

end Run

end Runs
