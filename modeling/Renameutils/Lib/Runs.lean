import Mathlib.Data.List.Basic

/-!
# Runs of a system

A system takes a step at each event, or none if the event cannot be followed. `Runs step ok s es s'`: the
events `es` take the system from `s` to `s'`, and each of them is `ok` where it happens.
-/

/-- A run; `ok` restricts the events by the states in which they happen. -/
inductive Runs {σ ε : Type} (step : σ → ε → Option σ) (ok : σ → ε → Prop) : σ → List ε → σ → Prop
  | nil (s : σ) : Runs step ok s [] s
  | cons {s s' s'' : σ} {e : ε} {es : List ε} (hok : ok s e) (hstep : step s e = some s')
    (h : Runs step ok s' es s'') : Runs step ok s (e :: es) s''

namespace Runs
variable {σ ε : Type} {step : σ → ε → Option σ} {ok : σ → ε → Prop} {s s' : σ} {es : List ε}

theorem invariant {I : σ → Prop} (hstep : ∀ s e s', I s → ok s e → step s e = some s' → I s')
    (h : Runs step ok s es s') (hs : I s) : I s' := by
  induction h with
  | nil => exact hs
  | cons hok hst _ ih => exact ih (hstep _ _ _ hs hok hst)

theorem simulate {τ : Type} {step' : τ → ε → Option τ} {R : τ → σ → Prop} {t : τ}
    (hstep : ∀ t s e s', R t s → ok s e → step s e = some s' → ∃ t', step' t e = some t' ∧ R t' s')
    (h : Runs step ok s es s') (hR : R t s) : ∃ t', es.foldlM step' t = some t' ∧ R t' s' := by
  induction h generalizing t with
  | nil => exact ⟨t, rfl, hR⟩
  | cons hok hst _ ih =>
    obtain ⟨t₁, hrun, h₁⟩ := hstep _ _ _ _ hR hok hst
    obtain ⟨t', hruns, h'⟩ := ih h₁
    exact ⟨t', by rw [List.foldlM_cons, hrun]; exact hruns, h'⟩

theorem append {s'' : σ} {es' : List ε} (h : Runs step ok s es s') (h' : Runs step ok s' es' s'') :
    Runs step ok s (es ++ es') s'' := by
  induction h with
  | nil => exact h'
  | cons hok hst _ ih => exact .cons hok hst (ih h')

/-- A run can be computed. -/
theorem of_foldlM (hok : ∀ e ∈ es, ∀ s, ok s e) (h : es.foldlM step s = some s') : Runs step ok s es s' := by
  induction es generalizing s with
  | nil =>
    cases h
    exact .nil _
  | cons e es ih =>
    rw [List.foldlM_cons] at h
    obtain ⟨t, ht, h⟩ := Option.bind_eq_some_iff.mp h
    exact .cons (hok e List.mem_cons_self s) ht (ih (fun e he => hok e (List.mem_cons_of_mem _ he)) h)

end Runs
