import Mathlib.Data.Set.Function
import Renameutils.Lib.Relocate

/-!
# Renaming the things in a table

`Renames ρ t₀ t`: the table `t` has the things of `t₀`, each under the name that `ρ` gives it, and no others:
nothing is lost, nothing is there twice and nothing has been overwritten. Things that were moved one at a time
are renamed (`Relocated.renames`). When the names stand for the places of another table, its things are renamed
too (`Renames.through`).
-/

namespace Table

variable {κ α ι : Type}

structure Renames (ρ : κ → κ) (t₀ t : Table κ α) : Prop where
  bij : Set.BijOn ρ {k | t₀ k ≠ none} {k | t k ≠ none}
  same : ∀ k, t₀ k ≠ none → t (ρ k) = t₀ k

namespace Renames
variable {ρ : κ → κ} {t₀ t : Table κ α} {k : κ} {a : α}

section Through
variable {π : Type} {loc : κ → Option π} {N : κ → Prop} {u₀ u : Table π α} {p : π}

/-- Where the thing at the place `p` goes when the names that stand for places are renamed. -/
noncomputable def carry (loc : κ → Option π) (N : κ → Prop) (ρ : κ → κ) (p : π) : π :=
  open Classical in if h : ∃ k, N k ∧ loc k = some p then (loc (ρ h.choose)).getD p else p

theorem carry_of_free (hp : ∀ k, N k → loc k ≠ some p) : carry loc N ρ p = p :=
  dif_neg fun ⟨k, hk, heq⟩ => hp k hk heq

theorem carry_of_loc (hinj : ∀ m n p, N m → N n → loc m = some p → loc n = some p → m = n) (hk : N k)
    (hp : loc k = some p) : carry loc N ρ p = (loc (ρ k)).getD p := by
  have h : ∃ k, N k ∧ loc k = some p := ⟨k, hk, hp⟩
  rw [carry, dif_pos h, hinj _ _ p h.choose_spec.1 hk h.choose_spec.2 hp]

theorem carry_of_same (hinj : ∀ m n p, N m → N n → loc m = some p → loc n = some p → m = n)
    (hsame : ∀ k, N k → loc k = some p → ρ k = k) : carry loc N ρ p = p := by
  by_cases h : ∃ k, N k ∧ loc k = some p
  · obtain ⟨k, hk, hkp⟩ := h
    rw [carry_of_loc hinj hk hkp, hsame k hk hkp, hkp, Option.getD_some]
  · exact carry_of_free fun k hk heq => h ⟨k, hk, heq⟩

/-- The names with `N` stand for places of the tables `u₀` and `u`, different ones for different places. -/
structure Stand (loc : κ → Option π) (N : κ → Prop) (t₀ t : Table κ α) (u₀ u : Table π α) : Prop where
  inj : ∀ m n p, N m → N n → loc m = some p → loc n = some p → m = n
  before : ∀ k, N k → t₀ k = (loc k).bind u₀
  after : ∀ k, N k → t k = (loc k).bind u
  only : ∀ k, ¬ N k → t₀ k = none ∧ t k = none
  free : ∀ p, (∀ k, N k → loc k ≠ some p) → u p = u₀ p

/-- What is at a place that a name stands for goes where the new name says. -/
theorem carry_spec (r : Renames ρ t₀ t) (s : Stand loc N t₀ t u₀ u) (hk : N k) (hp : loc k = some p)
    (hne : u₀ p ≠ none) :
    N (ρ k) ∧ loc (ρ k) = some (carry loc N ρ p) ∧ u (carry loc N ρ p) = u₀ p := by
  have hk₀ : t₀ k = u₀ p := by rw [s.before k hk, hp, Option.bind_some]
  have hsame : t (ρ k) = u₀ p := (r.same k (hk₀ ▸ hne)).trans hk₀
  have hNρ : N (ρ k) := by
    by_contra hno
    exact hne (hsame.symm.trans (s.only _ hno).2)
  rw [carry_of_loc s.inj hk hp]
  rw [s.after _ hNρ] at hsame
  cases hq : loc (ρ k) with
  | none =>
    rw [hq, Option.bind_none] at hsame
    exact absurd hsame.symm hne
  | some q =>
    rw [hq, Option.bind_some] at hsame
    exact ⟨hNρ, rfl, hsame⟩

theorem carry_injOn (r : Renames ρ t₀ t) (s : Stand loc N t₀ t u₀ u) :
    Set.InjOn (carry loc N ρ) {p | u₀ p ≠ none} := by
  intro p hp p' hp' heq
  by_cases h : ∃ k, N k ∧ loc k = some p <;> by_cases h' : ∃ k, N k ∧ loc k = some p'
  · obtain ⟨k, hk, hkp⟩ := h
    obtain ⟨k', hk', hkp'⟩ := h'
    obtain ⟨hNρ, hloc, _⟩ := r.carry_spec s hk hkp hp
    obtain ⟨hNρ', hloc', _⟩ := r.carry_spec s hk' hkp' hp'
    have hρ := s.inj _ _ _ hNρ hNρ' hloc (heq ▸ hloc')
    have hk₀ : t₀ k ≠ none := by rw [s.before k hk, hkp]; exact hp
    have hk₀' : t₀ k' ≠ none := by rw [s.before k' hk', hkp']; exact hp'
    obtain rfl := r.bij.injOn hk₀ hk₀' hρ
    exact Option.some.inj (hkp.symm.trans hkp')
  · obtain ⟨k, hk, hkp⟩ := h
    obtain ⟨hNρ, hloc, _⟩ := r.carry_spec s hk hkp hp
    rw [heq, carry_of_free fun k hk heq => h' ⟨k, hk, heq⟩] at hloc
    exact absurd ⟨_, hNρ, hloc⟩ h'
  · obtain ⟨k', hk', hkp'⟩ := h'
    obtain ⟨hNρ, hloc, _⟩ := r.carry_spec s hk' hkp' hp'
    rw [← heq, carry_of_free fun k hk heq => h ⟨k, hk, heq⟩] at hloc
    exact absurd ⟨_, hNρ, hloc⟩ h
  · rwa [carry_of_free fun k hk heq => h ⟨k, hk, heq⟩, carry_of_free fun k hk heq => h' ⟨k, hk, heq⟩] at heq

theorem carry_surjOn (r : Renames ρ t₀ t) (s : Stand loc N t₀ t u₀ u) :
    Set.SurjOn (carry loc N ρ) {p | u₀ p ≠ none} {p | u p ≠ none} := by
  intro q hq
  by_cases h : ∃ k, N k ∧ loc k = some q
  · obtain ⟨k', hk', hkq⟩ := h
    have hk'' : t k' ≠ none := by rw [s.after k' hk', hkq]; exact hq
    obtain ⟨k, hk₀, rfl⟩ := r.bij.surjOn hk''
    have hk : N k := by
      by_contra hno
      exact hk₀ (s.only k hno).1
    rw [Set.mem_ofPred_eq, s.before k hk] at hk₀
    obtain ⟨a, ha⟩ := Option.ne_none_iff_exists'.mp hk₀
    obtain ⟨p, hp, hpa⟩ := Option.bind_eq_some_iff.mp ha
    have hne : u₀ p ≠ none := by rw [hpa]; exact Option.some_ne_none a
    obtain ⟨_, hloc, _⟩ := r.carry_spec s hk hp hne
    exact ⟨p, hne, Option.some.inj (hloc.symm.trans hkq)⟩
  · have hfree : ∀ k, N k → loc k ≠ some q := fun k hk heq => h ⟨k, hk, heq⟩
    refine ⟨q, ?_, carry_of_free hfree⟩
    rw [Set.mem_ofPred_eq, ← s.free q hfree]
    exact hq

/-- Renaming what the names stand for renames the things at the places. -/
theorem through (r : Renames ρ t₀ t) (s : Stand loc N t₀ t u₀ u) : Renames (carry loc N ρ) u₀ u := by
  have hsame : ∀ p, u₀ p ≠ none → u (carry loc N ρ p) = u₀ p := by
    intro p hp
    by_cases h : ∃ k, N k ∧ loc k = some p
    · obtain ⟨k, hk, hkp⟩ := h
      exact (r.carry_spec s hk hkp hp).2.2
    · have hfree : ∀ k, N k → loc k ≠ some p := fun k hk heq => h ⟨k, hk, heq⟩
      rw [carry_of_free hfree, s.free p hfree]
  refine ⟨⟨fun p hp => ?_, r.carry_injOn s, r.carry_surjOn s⟩, hsame⟩
  rw [Set.mem_ofPred_eq, hsame p hp]
  exact hp

end Through

end Renames

namespace Relocated
variable {I : ι → Prop} {start loc : ι → κ} {t₀ t : Table κ α} {w : ι} {k : κ}

/-- A place that nothing was moved from is not the place of a thing that was moved, if there is something. -/
theorem loc_ne_of_other (r : Relocated I start t₀ loc t) (hw : I w) (hk : t₀ k ≠ none)
    (hother : ∀ v, I v → start v ≠ k) : loc w ≠ k := by
  rintro rfl
  rcases r.loc_fresh w hw with ⟨v, hv, heq⟩ | hnone
  · exact hother v hv heq.symm
  · exact hk hnone

theorem renames (r : Relocated I start t₀ loc t) (hinj : ∀ w v, I w → I v → start w = start v → w = v) :
    ∃ ρ, Renames ρ t₀ t ∧ (∀ w, I w → ρ (start w) = loc w) ∧ ∀ k, (∀ w, I w → start w ≠ k) → ρ k = k := by
  classical
  let ρ : κ → κ := fun k => if h : ∃ w, I w ∧ start w = k then loc h.choose else k
  have hmoved : ∀ w, I w → ρ (start w) = loc w := by
    intro w hw
    have h : ∃ v, I v ∧ start v = start w := ⟨w, hw, rfl⟩
    obtain ⟨hv, heq⟩ := h.choose_spec
    show (if h : ∃ v, I v ∧ start v = start w then loc h.choose else start w) = loc w
    rw [dif_pos h, hinj _ w hv hw heq]
  have hstays : ∀ k, (∀ w, I w → start w ≠ k) → ρ k = k := by
    intro k hk
    exact dif_neg fun ⟨w, hw, heq⟩ => hk w hw heq
  -- a thing is one of those that were moved, or it is where it was
  have hcases : ∀ k, t₀ k ≠ none → (∃ w, I w ∧ k = start w) ∨ (∀ w, I w → start w ≠ k) ∧ t k = t₀ k := by
    intro k hk
    by_cases h : ∃ w, I w ∧ k = start w
    · exact .inl h
    · have hother : ∀ w, I w → start w ≠ k := fun w hw heq => h ⟨w, hw, heq.symm⟩
      exact .inr ⟨hother, r.other k hother fun w hw => r.loc_ne_of_other hw hk hother⟩
  have hsame : ∀ k, t₀ k ≠ none → t (ρ k) = t₀ k := by
    intro k hk
    rcases hcases k hk with ⟨w, hw, rfl⟩ | ⟨hother, heq⟩
    · rw [hmoved w hw, r.at_loc w hw]
    · rw [hstays k hother, heq]
  refine ⟨ρ, ⟨⟨fun k hk => ?_, fun k hk k' hk' heq => ?_, fun k hk => ?_⟩, hsame⟩, hmoved, hstays⟩
  · show t (ρ k) ≠ none
    rw [hsame k hk]
    exact hk
  · rcases hcases k hk with ⟨w, hw, rfl⟩ | ⟨hother, _⟩ <;> rcases hcases k' hk' with ⟨v, hv, rfl⟩ | ⟨hother', _⟩
    · rw [hmoved w hw, hmoved v hv] at heq
      rw [r.loc_inj w v hw hv heq]
    · rw [hmoved w hw, hstays k' hother'] at heq
      exact absurd heq (r.loc_ne_of_other hw hk' hother')
    · rw [hstays k hother, hmoved v hv] at heq
      exact absurd heq.symm (r.loc_ne_of_other hv hk hother)
    · rwa [hstays k hother, hstays k' hother'] at heq
  · by_cases hloc : ∃ w, I w ∧ loc w = k
    · obtain ⟨w, hw, rfl⟩ := hloc
      obtain ⟨a, ha⟩ := r.start_some w hw
      exact ⟨start w, by rw [Set.mem_ofPred_eq, ha]; exact Option.some_ne_none a, hmoved w hw⟩
    · have hother : ∀ w, I w → start w ≠ k := by
        rintro w hw rfl
        exact hk (r.left w hw fun v hv heq => hloc ⟨v, hv, heq⟩)
      have heq := r.other k hother fun w hw h => hloc ⟨w, hw, h⟩
      exact ⟨k, by rw [Set.mem_ofPred_eq, ← heq]; exact hk, hstays k hother⟩

end Relocated
end Table
