/-
Forward simulation of labelled transition systems. Where every step of one system, from a reached state
that the relation ties to a state of the other, is answered by a step of the other with the same label,
each run of the first has the labels of a run of the second. The relation may read the history, and the
answer may rely on a property of the run that holds of its earlier states whenever it holds of later ones.
-/
import Yaqeen.Lib.Runs

namespace Runs

variable {σ α ε : Type}

/-- What an observer sees of a run. -/
def labels (tr : List (Transition σ ε)) : List ε := tr.map Transition.label

theorem labels_snoc (tr : List (Transition σ ε)) (τ : Transition σ ε) : labels (tr ++ [τ]) = labels tr ++ [τ.label] := by
  unfold labels
  rw [List.map_append, List.map_singleton]

theorem Run.simulate {step : σ → ε → σ → Prop} {step' : α → ε → α → Prop} {s₀ : σ} {a₀ : α}
    {G : List (Transition σ ε) → σ → Prop} {R : List (Transition σ ε) → σ → α → Prop} (h0 : R [] s₀ a₀)
    (hG : ∀ tr s e s', Run step s₀ tr s → step s e s' → G (tr ++ [⟨s, e, s'⟩]) s' → G tr s)
    (hs : ∀ tr s e s' a, Run step s₀ tr s → step s e s' → G (tr ++ [⟨s, e, s'⟩]) s' → R tr s a →
      ∃ a', step' a e a' ∧ R (tr ++ [⟨s, e, s'⟩]) s' a')
    {tr : List (Transition σ ε)} {s : σ} (h : Run step s₀ tr s) (hg : G tr s) :
    ∃ tr' a, Run step' a₀ tr' a ∧ labels tr' = labels tr ∧ R tr s a := by
  induction h with
  | nil => exact ⟨[], a₀, .nil, rfl, h0⟩
  | snoc hr hst ih =>
    obtain ⟨tr', a, hrun, hlabels, hR⟩ := ih (hG _ _ _ _ hr hst hg)
    obtain ⟨a', hst', hR'⟩ := hs _ _ _ _ _ hr hst hg hR
    refine ⟨_, a', hrun.snoc hst', ?_, hR'⟩
    rw [labels_snoc, labels_snoc, hlabels]

end Runs
