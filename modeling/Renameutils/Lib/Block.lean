import Mathlib.Data.List.Basic

/-!
# Blocks of memory

A `Block α` is an allocation of cells for values of a type `α`; a cell that nothing has been written to holds
`none`. Offsets are integers, and an access that leaves the allocation is an error (`none`).
-/

abbrev Block (α : Type) := List (Option α)

namespace Block

variable {α : Type} {b pre mid post : Block α} {data : List (Option α)} {off : Int} {n : Nat}

def alloc (n : Nat) : Block α := List.replicate n none

def load (b : Block α) (off : Int) (n : Nat) : Option (List (Option α)) :=
  if 0 ≤ off ∧ off + n ≤ b.length then some ((b.drop off.toNat).take n) else none

def store (b : Block α) (off : Int) (data : List (Option α)) : Option (Block α) :=
  if 0 ≤ off ∧ off + data.length ≤ b.length then
    some (b.take off.toNat ++ data ++ b.drop (off.toNat + data.length))
  else none

def read (b : Block α) (off : Int) : Option (Option α) := if 0 ≤ off then b[off.toNat]? else none

/-- The cells are read before any is written, so that the ranges may overlap. -/
def move (b : Block α) (dst src : Int) (n : Nat) : Option (Block α) := do
  let data ← b.load src n
  b.store dst data

/-- What fits into the new allocation is kept. -/
def realloc (b : Block α) (n : Nat) : Block α := b.take n ++ alloc (n - b.length)

theorem load_append (hoff : off = pre.length) (hn : n = mid.length) :
    (pre ++ mid ++ post : Block α).load off n = some mid := by
  subst hoff hn
  simp only [load, List.length_append, Int.toNat_natCast, List.append_assoc, List.drop_left', List.take_left']
  exact if_pos ⟨by omega, by omega⟩

theorem store_append (hoff : off = pre.length) (hlen : data.length = mid.length) :
    (pre ++ mid ++ post : Block α).store off data = some (pre ++ data ++ post) := by
  subst hoff
  simp only [store, List.length_append, Int.toNat_natCast, hlen]
  rw [if_pos ⟨by omega, by omega⟩, ← List.length_append, List.drop_left, List.append_assoc pre mid, List.take_left]

theorem store_one {a x : Option α} (hoff : off = pre.length) :
    Block.store (pre ++ a :: post) off [x] = some (pre ++ x :: post) := by
  have h : Block.store (pre ++ [a] ++ post) off [x] = some (pre ++ [x] ++ post) := store_append hoff rfl
  rwa [List.append_assoc, List.append_assoc] at h

theorem read_append {a : Option α} (hoff : off = pre.length) : (pre ++ a :: post : Block α).read off = some a := by
  subst hoff
  simp [read]

theorem store_of_neg (h : off < 0) : b.store off data = none := if_neg fun h' => by omega

theorem move_of_neg {dst src : Int} (h : dst < 0) : b.move dst src n = none := by
  rw [move]
  cases b.load src n with
  | none => rfl
  | some data => exact store_of_neg h

theorem length_store {b' : Block α} (h : b.store off data = some b') : b'.length = b.length := by
  rw [store] at h
  split at h
  · cases h
    simp only [List.length_append, List.length_take, List.length_drop]
    omega
  · cases h

theorem length_move {b' : Block α} {dst src : Int} (h : b.move dst src n = some b') : b'.length = b.length := by
  obtain ⟨data, -, hstore⟩ := Option.bind_eq_some_iff.mp h
  exact length_store hstore

theorem length_realloc (b : Block α) (n : Nat) : (b.realloc n).length = n := by
  simp only [realloc, alloc, List.length_append, List.length_take, List.length_replicate]
  omega

theorem realloc_of_le (h : b.length ≤ n) : b.realloc n = b ++ alloc (n - b.length) := by
  rw [realloc, List.take_of_length_le h]

end Block
