import Mathlib.Logic.Function.Basic

/-!
# Tables

A `Table κ α` is a finite map as its callers see it: the value stored under each key, if any.
-/

/-- A map from keys to values; `t k` is the value stored under `k`. -/
abbrev Table (κ α : Type) := κ → Option α

namespace Table

variable {κ α : Type} [DecidableEq κ]

def empty : Table κ α := fun _ => none

def put (t : Table κ α) (k : κ) (v : α) : Table κ α := Function.update t k (some v)

def remove (t : Table κ α) (k : κ) : Table κ α := Function.update t k none

def contains (t : Table κ α) (k : κ) : Bool := (t k).isSome

theorem put_apply (t : Table κ α) (k : κ) (v : α) (k' : κ) :
    t.put k v k' = if k' = k then some v else t k' := Function.update_apply ..

theorem remove_apply (t : Table κ α) (k k' : κ) :
    t.remove k k' = if k' = k then none else t k' := Function.update_apply ..

@[simp] theorem put_same (t : Table κ α) (k : κ) (v : α) : t.put k v k = some v := by
  rw [put_apply, if_pos rfl]

theorem put_ne (t : Table κ α) {k k' : κ} (v : α) (h : k' ≠ k) : t.put k v k' = t k' := by
  rw [put_apply, if_neg h]

@[simp] theorem remove_same (t : Table κ α) (k : κ) : t.remove k k = none := by
  rw [remove_apply, if_pos rfl]

theorem remove_ne (t : Table κ α) {k k' : κ} (h : k' ≠ k) : t.remove k k' = t k' := by
  rw [remove_apply, if_neg h]

end Table
