import Mathlib.Data.List.Basic
import Mathlib.Data.List.Nodup
import Mathlib.Data.List.Forall2

/-!
# Linked nodes

`next i` is what the link of the node `i` holds: `some p` if there is such a node, and then `p` is the
node linked to, if any. `Linked next p ids q`: from `p` on one meets the nodes `ids`, and then `q`.
-/

inductive Linked {ι : Type} (next : ι → Option (Option ι)) : Option ι → List ι → Option ι → Prop
  | nil (p : Option ι) : Linked next p [] p
  | cons {i : ι} {p q : Option ι} {ids : List ι} :
      next i = some p → Linked next p ids q → Linked next (some i) (i :: ids) q

namespace Linked

variable {ι : Type} {next next' : ι → Option (Option ι)} {i : ι} {p q r : Option ι} {ids xs ys : List ι}

theorem nil_eq (h : Linked next p [] q) : p = q := by cases h; rfl

theorem cons_inv (h : Linked next p (i :: ids) q) :
    p = some i ∧ ∃ p', next i = some p' ∧ Linked next p' ids q := by
  cases h with
  | cons hi h => exact ⟨rfl, _, hi, h⟩

theorem of_none (h : Linked next none ids q) : ids = [] ∧ q = none := by
  cases h; exact ⟨rfl, rfl⟩

theorem of_some (h : Linked next (some i) ids none) :
    ∃ ids' p', ids = i :: ids' ∧ next i = some p' ∧ Linked next p' ids' none := by
  cases h with
  | cons hi h => exact ⟨_, _, rfl, hi, h⟩

theorem append (h : Linked next p xs q) (h' : Linked next q ys r) : Linked next p (xs ++ ys) r := by
  induction h with
  | nil => exact h'
  | cons hi _ ih => exact .cons hi (ih h')

theorem split : ∀ {xs : List ι} {p : Option ι}, Linked next p (xs ++ ys) r →
    ∃ q, Linked next p xs q ∧ Linked next q ys r
  | [], p, h => ⟨p, .nil p, h⟩
  | x :: xs, p, h => by
    obtain ⟨rfl, p', hx, h⟩ := cons_inv h
    obtain ⟨q, h₁, h₂⟩ := split h
    exact ⟨q, .cons hx h₁, h₂⟩

theorem congr (h : Linked next p ids q) (hn : ∀ i ∈ ids, next' i = next i) : Linked next' p ids q := by
  induction h with
  | nil => exact .nil _
  | cons hi _ ih =>
    exact .cons ((hn _ List.mem_cons_self).trans hi) (ih fun j hj => hn j (List.mem_cons_of_mem _ hj))

theorem unique (h : Linked next p xs none) (h' : Linked next p ys none) : xs = ys := by
  generalize hq : (none : Option ι) = q at h
  induction h generalizing ys with
  | nil => subst hq; exact h'.of_none.1.symm
  | cons hi _ ih =>
    obtain ⟨ys', p', rfl, hi', h'⟩ := h'.of_some
    cases hi.symm.trans hi'
    rw [ih h' hq]

/-- A node met twice would be met again and again. -/
theorem nodup (h : Linked next p ids none) : ids.Nodup := by
  induction ids generalizing p with
  | nil => exact List.nodup_nil
  | cons i ids ih =>
    obtain ⟨rfl, p', hi, h'⟩ := h.cons_inv
    refine List.nodup_cons.mpr ⟨fun hmem => ?_, ih h'⟩
    obtain ⟨xs, ys, rfl⟩ := List.append_of_mem hmem
    obtain ⟨q, -, hq⟩ := split h'
    obtain ⟨rfl, -⟩ := hq.cons_inv
    have := congrArg List.length (h.unique hq)
    simp only [List.length_cons, List.length_append] at this
    omega

theorem isSome_of_mem (h : Linked next p ids q) (hi : i ∈ ids) : (next i).isSome := by
  induction h with
  | nil => cases hi
  | cons hj _ ih =>
    rcases List.mem_cons.mp hi with rfl | hi
    · rw [hj]; rfl
    · exact ih hi

theorem relink (h : Linked next p (xs ++ [i]) q) (hn : ∀ j ∈ xs, next' j = next j)
    (hi : next' i = some r) : Linked next' p (xs ++ [i]) r := by
  obtain ⟨p', h₁, h₂⟩ := split h
  obtain ⟨rfl, -⟩ := h₂.cons_inv
  exact (h₁.congr hn).append (.cons hi (.nil r))

theorem forall₂_congr {ps : List (Option ι)} {chains : List (List ι)}
    (h : List.Forall₂ (Linked next · · none) ps chains) (hn : ∀ i ∈ chains.flatten, next' i = next i) :
    List.Forall₂ (Linked next' · · none) ps chains := by
  refine List.forall₂_iff_get.mpr ⟨h.length_eq, fun n h₁ h₂ => ?_⟩
  refine ((List.forall₂_iff_get.mp h).2 n h₁ h₂).congr fun i hi => hn i ?_
  exact List.mem_flatten.mpr ⟨_, List.get_mem _ _, hi⟩

end Linked
