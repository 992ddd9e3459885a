import Mathlib.Data.List.Basic
import Mathlib.Data.List.Range
import Mathlib.Data.List.Nodup
import Mathlib.Logic.Function.Basic
import Mathlib.Data.Finset.Card

/-!
# Nodes at addresses

An `Arena α` holds the nodes of type `α` that a program has allocated and not freed. Reading, writing or
freeing at an address that holds no node is an error (`none`).
-/

@[ext]
structure Arena (α : Type) where
  cells : Nat → Option α
  /-- the next address given out -/
  fresh : Nat
  unused : ∀ i, fresh ≤ i → cells i = none

namespace Arena

variable {α : Type} {h : Arena α} {i j : Nat} {a : α}

def empty : Arena α := ⟨fun _ => none, 0, fun _ _ => rfl⟩

theorem lt_fresh (hi : h.cells i = some a) : i < h.fresh := by
  by_contra hlt
  rw [h.unused i (Nat.le_of_not_lt hlt)] at hi; cases hi

@[simp] theorem cells_fresh (h : Arena α) : h.cells h.fresh = none := h.unused _ (Nat.le_refl _)

/-- A new node and its address. -/
def alloc (h : Arena α) (a : α) : Arena α × Nat :=
  (⟨Function.update h.cells h.fresh (some a), h.fresh + 1, fun i hi => by
    rw [Function.update_of_ne (by omega)]; exact h.unused i (by omega)⟩, h.fresh)

/-- The node at `i`, if there is one, becomes `f` of it. -/
def modify (h : Arena α) (i : Nat) (f : α → α) : Arena α :=
  ⟨fun j => if j = i then (h.cells j).map f else h.cells j, h.fresh, fun j hj => by
    simp [h.unused j hj]⟩

def write (h : Arena α) (i : Nat) (f : α → α) : Option (Arena α) :=
  if (h.cells i).isSome then some (h.modify i f) else none

def erase (h : Arena α) (i : Nat) : Arena α :=
  ⟨Function.update h.cells i none, h.fresh, fun j hj => by
    rw [Function.update_apply, h.unused j hj, ite_self]⟩

def free (h : Arena α) (i : Nat) : Option (Arena α) :=
  if (h.cells i).isSome then some (h.erase i) else none

theorem write_eq (f : α → α) (hi : h.cells i = some a) : h.write i f = some (h.modify i f) := by
  rw [write, hi]; rfl

theorem free_eq (hi : h.cells i = some a) : h.free i = some (h.erase i) := by
  rw [free, hi]; rfl

@[simp] theorem alloc_fst_fresh (h : Arena α) (a : α) : (h.alloc a).1.fresh = h.fresh + 1 := rfl
@[simp] theorem alloc_snd (h : Arena α) (a : α) : (h.alloc a).2 = h.fresh := rfl
@[simp] theorem modify_fresh (h : Arena α) (i : Nat) (f : α → α) : (h.modify i f).fresh = h.fresh := rfl
@[simp] theorem erase_fresh (h : Arena α) (i : Nat) : (h.erase i).fresh = h.fresh := rfl

@[simp] theorem alloc_cells_fresh (h : Arena α) (a : α) : (h.alloc a).1.cells h.fresh = some a :=
  Function.update_self ..

theorem alloc_cells_ne (a : α) (hi : i ≠ h.fresh) : (h.alloc a).1.cells i = h.cells i :=
  Function.update_of_ne hi ..

theorem alloc_cells_of_some {b : α} (a : α) (hi : h.cells i = some b) :
    (h.alloc a).1.cells i = some b := by
  rw [alloc_cells_ne a (Nat.ne_of_lt (lt_fresh hi)), hi]

theorem modify_cells_self (h : Arena α) (i : Nat) (f : α → α) :
    (h.modify i f).cells i = (h.cells i).map f := if_pos rfl

theorem modify_cells_ne (f : α → α) (hj : j ≠ i) : (h.modify i f).cells j = h.cells j := if_neg hj

@[simp] theorem erase_cells_self (h : Arena α) (i : Nat) : (h.erase i).cells i = none :=
  Function.update_self ..

theorem erase_cells_ne (hj : j ≠ i) : (h.erase i).cells j = h.cells j := Function.update_of_ne hj ..

/-- There is room for `fresh` different nodes only. -/
theorem length_le_fresh {ids : List Nat} (hnd : ids.Nodup) (hids : ∀ i ∈ ids, h.cells i ≠ none) :
    ids.length ≤ h.fresh := by
  have hsub : ids ⊆ List.range h.fresh := by
    intro i hi
    obtain ⟨a, ha⟩ := Option.ne_none_iff_exists'.mp (hids i hi)
    exact List.mem_range.mpr (lt_fresh ha)
  simpa using (hnd.subperm hsub).length_le

/-- The addresses in use. -/
def live (h : Arena α) : Finset Nat := (Finset.range h.fresh).filter fun i => (h.cells i).isSome

theorem mem_live : i ∈ h.live ↔ (h.cells i).isSome = true := by
  rw [live, Finset.mem_filter, Finset.mem_range]
  refine ⟨And.right, fun hi => ⟨?_, hi⟩⟩
  obtain ⟨a, ha⟩ := Option.isSome_iff_exists.mp hi
  exact lt_fresh ha

theorem live_write {h' : Arena α} {f : α → α} (hw : h.write i f = some h') : h'.live = h.live := by
  unfold write at hw
  split at hw
  · cases hw
    ext j
    rw [mem_live, mem_live]
    by_cases hj : j = i
    · rw [hj, modify_cells_self, Option.isSome_map]
    · rw [modify_cells_ne f hj]
  · cases hw

theorem live_alloc (h : Arena α) (a : α) : (h.alloc a).1.live = insert h.fresh h.live := by
  ext j
  rw [Finset.mem_insert, mem_live, mem_live]
  by_cases hj : j = h.fresh
  · simp [hj]
  · rw [alloc_cells_ne a hj]
    simp [hj]

theorem fresh_notMem_live (h : Arena α) : h.fresh ∉ h.live := by simp [mem_live]

theorem live_free {h' : Arena α} (hf : h.free i = some h') : i ∈ h.live ∧ h'.live = h.live.erase i := by
  unfold free at hf
  split at hf
  · rename_i hi
    cases hf
    refine ⟨mem_live.mpr hi, ?_⟩
    ext j
    rw [Finset.mem_erase, mem_live, mem_live]
    by_cases hj : j = i
    · simp [hj]
    · rw [erase_cells_ne hj]
      simp [hj]
  · cases hf

end Arena
