import Mathlib.Data.List.Basic

/-!
# Binary search

`bsearch` as the C library has it, in a list that is read by index. `compare` is the comparison of the key with an
element. The elements that the key comes after have to stand before those that it comes before (`Ordered`); then
the search misses nothing (`bsearch_none`), and what it finds is right in any list (`bsearch_some`).
-/

namespace BinarySearch

variable {α : Type} {compare : α → Ordering} {xs : List α} {l u : Nat} {x : α}

/-- The loop, with the part of the list that is left. -/
def loop (compare : α → Ordering) (xs : List α) (l u : Nat) : Option α :=
  if _hlt : l < u then
    match xs[(l + u) / 2]? with
    | none => none
    | some x =>
      match compare x with
      | .lt => loop compare xs l ((l + u) / 2)
      | .gt => loop compare xs ((l + u) / 2 + 1) u
      | .eq => some x
  else none
termination_by u - l

def bsearch (compare : α → Ordering) (xs : List α) : Option α := loop compare xs 0 xs.length

/-- What the key comes after, what it equals, and what it comes before, in this order. -/
def Ordered (compare : α → Ordering) (xs : List α) : Prop :=
  xs.Pairwise fun x y => (compare x = .lt → compare y = .lt) ∧ (compare y = .gt → compare x = .gt)

theorem loop_some (h : loop compare xs l u = some x) : x ∈ xs ∧ compare x = .eq := by
  fun_induction loop compare xs l u with
  | case1 l u hlt hnone => cases h
  | case2 l u hlt y hy hcmp ih => exact ih h
  | case3 l u hlt y hy hcmp ih => exact ih h
  | case4 l u hlt y hy hcmp =>
    obtain rfl := Option.some.inj h
    exact ⟨List.mem_of_getElem? hy, hcmp⟩
  | case5 l u hlt => cases h

theorem loop_none (hord : Ordered compare xs) (hu : u ≤ xs.length)
    (hbefore : ∀ i y, i < l → xs[i]? = some y → compare y ≠ .eq)
    (hafter : ∀ i y, u ≤ i → xs[i]? = some y → compare y ≠ .eq) (h : loop compare xs l u = none) :
    ∀ y ∈ xs, compare y ≠ .eq := by
  have hpair : ∀ {i j : Nat} {y z : α}, i < j → xs[i]? = some y → xs[j]? = some z →
      (compare y = .lt → compare z = .lt) ∧ (compare z = .gt → compare y = .gt) := by
    intro i j y z hij hy hz
    obtain ⟨hi, rfl⟩ := List.getElem?_eq_some_iff.mp hy
    obtain ⟨hj, rfl⟩ := List.getElem?_eq_some_iff.mp hz
    exact List.pairwise_iff_getElem.mp hord i j hi hj hij
  fun_induction loop compare xs l u with
  | case1 l u hlt hnone => exact absurd (List.getElem?_eq_none_iff.mp hnone) (by omega)
  | case2 l u hlt x hx hcmp ih =>
    refine ih (by omega) hbefore (fun i y hi hy => ?_) h
    rcases Nat.eq_or_lt_of_le hi with rfl | hi
    · obtain rfl := Option.some.inj (hx.symm.trans hy)
      rw [hcmp]
      decide
    · rw [(hpair hi hx hy).1 hcmp]
      decide
  | case3 l u hlt x hx hcmp ih =>
    refine ih hu (fun i y hi hy => ?_) hafter h
    rcases Nat.eq_or_lt_of_le (Nat.le_of_lt_succ hi) with rfl | hi
    · obtain rfl := Option.some.inj (hx.symm.trans hy)
      rw [hcmp]
      decide
    · rw [(hpair hi hy hx).2 hcmp]
      decide
  | case4 l u hlt x hx hcmp => cases h
  | case5 l u hlt =>
    intro y hy
    obtain ⟨i, hi, rfl⟩ := List.mem_iff_getElem.mp hy
    rcases Nat.lt_or_ge i l with hil | hil
    · exact hbefore i _ hil (List.getElem?_eq_getElem hi)
    · exact hafter i _ (by omega) (List.getElem?_eq_getElem hi)

theorem bsearch_some (h : bsearch compare xs = some x) : x ∈ xs ∧ compare x = .eq := loop_some h

theorem bsearch_none (hord : Ordered compare xs) (h : bsearch compare xs = none) : ∀ y ∈ xs, compare y ≠ .eq := by
  refine loop_none hord (Nat.le_refl _) ?_ ?_ h
  · intro i y hi
    omega
  · intro i y hi hy
    rw [List.getElem?_eq_none_iff.mpr hi] at hy
    cases hy

end BinarySearch
