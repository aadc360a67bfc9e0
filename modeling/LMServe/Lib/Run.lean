import Mathlib.Logic.Basic

/-!
# Runs of a labelled transition system

`Run step s ls s'`: the steps labelled `ls`, taken one after the other from `s`, end in `s'`. What
holds of the first state and is kept by every step holds of the last state.
-/

/-- A finite run; the labels are in the order of the steps. -/
inductive Run {σ ℓ : Type} (step : σ → ℓ → σ → Prop) (s : σ) : List ℓ → σ → Prop
  | nil : Run step s [] s
  | snoc {ls : List ℓ} {l : ℓ} {s' s'' : σ} :
      Run step s ls s' → step s' l s'' → Run step s (ls ++ [l]) s''

namespace Run
variable {σ ℓ : Type} {step step' : σ → ℓ → σ → Prop} {s s' : σ} {ls : List ℓ}

theorem invariant {I : σ → Prop} (h0 : I s) (hstep : ∀ t l t', I t → step t l t' → I t')
    (h : Run step s ls s') : I s' := by
  induction h with
  | nil => exact h0
  | snoc _ hs ih => exact hstep _ _ _ ih hs

theorem mono (hstep : ∀ t l t', step t l t' → step' t l t') (h : Run step s ls s') :
    Run step' s ls s' := by
  induction h with
  | nil => exact .nil
  | snoc _ hs ih => exact ih.snoc (hstep _ _ _ hs)

/-- Take the steps `ls` of a deterministic system, if they are all possible. -/
def follow (next : σ → ℓ → Option σ) : σ → List ℓ → Option σ
  | s, [] => some s
  | s, l :: ls => (next s l).bind (follow next · ls)

theorem cons {t : σ} {l : ℓ} (hs : step s l t) (h : Run step t ls s') :
    Run step s (l :: ls) s' := by
  induction h with
  | nil => exact Run.snoc .nil hs
  | snoc _ hl ih => exact ih.snoc hl

theorem append {t : σ} {ls' : List ℓ} (h : Run step s ls t) (h' : Run step t ls' s') :
    Run step s (ls ++ ls') s' := by
  induction h' with
  | nil => rw [List.append_nil]; exact h
  | snoc _ hs ih => rw [← List.append_assoc]; exact ih.snoc hs

theorem of_follow {next : σ → ℓ → Option σ} (hnext : ∀ t l t', next t l = some t' → step t l t') :
    ∀ {s : σ} {ls : List ℓ}, follow next s ls = some s' → Run step s ls s'
  | s, [], h => by obtain rfl := Option.some.inj h; exact .nil
  | s, l :: ls, h => by
    obtain ⟨t, ht, h⟩ := Option.bind_eq_some_iff.1 h
    exact cons (hnext s l t ht) (of_follow hnext h)

/-- A run found by computation, with what is computed of its last state. -/
theorem exists_of_follow {next : σ → ℓ → Option σ}
    (hnext : ∀ t l t', next t l = some t' → step t l t') {p : σ → Bool}
    (h : (follow next s ls).any p = true) : ∃ s', Run step s ls s' ∧ p s' = true := by
  cases hf : follow next s ls with
  | none => rw [hf] at h; cases h
  | some s' => rw [hf] at h; exact ⟨s', of_follow hnext hf, h⟩

end Run
