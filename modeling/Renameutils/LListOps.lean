import Renameutils.LListRep
import Mathlib.Data.List.Induction

/-!
# The operations of the linked list, one by one

Each operation on a list that holds `xs` is defined, and the list then holds what the operation makes of `xs`.
`llist_get_entry` finds the node at an index from either end; `llist_reverse` swaps data from both ends inwards.
-/

namespace Renameutils.LList

open LHeap

variable {α : Type} {heap heap' : LHeap α} {list list' list2 : LList} {i k size fuel : Nat}
variable {ids ids₁ ids₂ : List Nat} {xs ys zs : List (Option α)} {x data : Option α}
variable {before head last after m n : Option Nat}

/-! ### Nodes by index -/

theorem forwardLoop_spec (h : Segment heap before head ids xs last after) :
    forwardLoop heap xs.length head = some after := by
  induction xs generalizing before head ids with
  | nil =>
    obtain ⟨-, rfl, -⟩ := h.nil_eq
    rfl
  | cons x xs ih =>
    obtain ⟨i, ids, p, rfl, rfl, hcell, h⟩ := h.cons_inv
    simp only [List.length_cons, forwardLoop, LHeap.deref, Option.bind_some, hcell, Option.bind_eq_bind]
    exact ih h

theorem backwardLoop_spec (h : Segment heap before head ids xs last after) (hsize : size = k + 1 + xs.length)
    (hsmall : size < 2 ^ 32) (hf : xs.length < fuel) : backwardLoop heap size fuel k last = some before := by
  induction xs using List.reverseRecOn generalizing last after ids k fuel with
  | nil =>
    obtain ⟨-, -, rfl⟩ := h.nil_eq
    obtain _ | fuel := fuel
    · cases hf
    simp only [List.length_nil, Nat.add_zero] at hsize
    subst hsize
    have hindex : uint32 (k + 1) = k + 1 := uint32_eq rfl hsmall
    rw [backwardLoop, hindex, if_neg (Nat.lt_irrefl _)]
  | append_singleton xs x ih =>
    obtain ⟨i, ids, p, rfl, rfl, hcell, h⟩ := h.concat_inv
    obtain _ | fuel := fuel
    · cases hf
    simp only [List.length_append, List.length_singleton] at hsize hf
    have hlt : k + 1 < size := by omega
    have hindex : uint32 (k + 1) = k + 1 := uint32_eq rfl (hlt.trans hsmall)
    rw [backwardLoop, hindex, if_pos hlt]
    simp only [LHeap.deref, Option.bind_some, hcell, Option.bind_eq_bind]
    exact ih h (by omega) (by omega)

namespace Cut

theorem forwardLoop (h : Cut heap list ids₁ xs m i x n ids₂ ys) :
    LList.forwardLoop heap xs.length list.first = some (some i) := forwardLoop_spec h.left

theorem getEntry (h : Cut heap list ids₁ xs m i x n ids₂ ys) (hsize : list.size = (xs ++ x :: ys).length)
    (hsmall : (xs ++ x :: ys).length < 2 ^ 32) : LList.getEntry heap list xs.length = some (some i) := by
  rw [List.length_append, List.length_cons] at hsize hsmall
  unfold LList.getEntry
  split
  · exact h.forwardLoop
  · exact backwardLoop_spec h.right (by omega) (by omega) (by omega)

end Cut

theorem eq_append_cons (h : k < xs.length) : ∃ x ys zs, xs = ys ++ x :: zs ∧ ys.length = k :=
  ⟨xs[k], xs.take k, xs.drop (k + 1), by simp, by simp; omega⟩

theorem insertIdx_append (ys zs : List (Option α)) (x : Option α) :
    (ys ++ zs).insertIdx ys.length x = ys ++ x :: zs := by
  induction ys with
  | nil => rfl
  | cons y ys ih => rw [List.cons_append, List.length_cons, List.insertIdx_succ_cons, ih, List.cons_append]

theorem eraseIdx_append (ys zs : List (Option α)) (x : Option α) :
    (ys ++ x :: zs).eraseIdx ys.length = ys ++ zs := by
  rw [List.eraseIdx_append_of_length_le (Nat.le_refl _), Nat.sub_self, List.eraseIdx_cons_zero]

theorem take_append_cons (ys zs : List (Option α)) (x : Option α) :
    (ys ++ x :: zs).take (ys.length + 1) = ys ++ [x] := by
  rw [List.take_append, List.take_of_length_le (Nat.le_succ _), Nat.add_sub_cancel_left, List.take_succ_cons,
    List.take_zero]

namespace Holds

theorem getEntry (h : Holds heap list ids (xs ++ x :: ys)) :
    ∃ ids₁ m i n ids₂, ids = ids₁ ++ i :: ids₂ ∧ Cut heap list ids₁ xs m i x n ids₂ ys ∧
      LList.getEntry heap list xs.length = some (some i) := by
  obtain ⟨ids₁, m, i, n, ids₂, rfl, hcut⟩ := h.cut
  exact ⟨ids₁, m, i, n, ids₂, rfl, hcut, hcut.getEntry h.size h.small⟩

theorem get (h : Holds heap list ids xs) (k : Nat) : LList.get heap list k = some xs[k]?.join := by
  unfold LList.get
  rw [h.size]
  split
  · next hk =>
    rw [List.getElem?_eq_none hk]
    rfl
  · next hk =>
    obtain ⟨x, ys, zs, rfl, rfl⟩ := eq_append_cons (Nat.lt_of_not_le hk)
    obtain ⟨ids₁, m, i, n, ids₂, rfl, hcut, hget⟩ := h.getEntry
    rw [hget]
    simp only [Option.bind_eq_bind, Option.bind_some, hcut.deref]
    simp

theorem getFirst (h : Holds heap list ids xs) : LList.getFirst heap list = some xs.head?.join := by
  unfold LList.getFirst
  cases xs with
  | nil => rw [if_pos (h.size_eq_zero_iff.mpr rfl)]; rfl
  | cons x xs =>
    obtain ⟨i, ids, p, rfl, hfirst, hcell, -⟩ := h.segment.cons_inv
    rw [if_neg (by rw [h.size]; simp), hfirst]
    simp [LHeap.deref, hcell]

theorem getLast (h : Holds heap list ids xs) : LList.getLast heap list = some xs.getLast?.join := by
  unfold LList.getLast
  obtain rfl | ⟨xs, x, rfl⟩ := xs.eq_nil_or_concat'
  · rw [if_pos (h.size_eq_zero_iff.mpr rfl)]; rfl
  · obtain ⟨i, ids, p, rfl, hlast, hcell, -⟩ := h.segment.concat_inv
    rw [if_neg (by rw [h.size]; simp), hlast]
    simp [LHeap.deref, hcell]

/-! ### Taking nodes out -/

theorem removeEntry (h : Holds heap list (ids₁ ++ i :: ids₂) (xs ++ x :: ys))
    (hcut : Cut heap list ids₁ xs m i x n ids₂ ys) :
    ∃ heap' list', LList.removeEntry heap list (some i) = some (heap', list') ∧
      Becomes heap (ids₁ ++ i :: ids₂) heap' list' (xs ++ ys) :=
  ⟨_, _, removeEntry_eq hcut h.size, unlinked_holds hcut h.size h.small⟩

theorem removeFirst (h : Holds heap list ids xs) :
    ∃ heap' list', LList.removeFirst heap list = some (heap', list', xs.head?.join) ∧
      Becomes heap ids heap' list' xs.tail := by
  unfold LList.removeFirst
  cases xs with
  | nil => exact ⟨heap, list, by rw [if_pos (h.size_eq_zero_iff.mpr rfl)]; rfl, h.becomes⟩
  | cons x xs =>
    obtain ⟨ids₁, m, i, n, ids₂, rfl, hcut⟩ := (show Holds heap list ids ([] ++ x :: xs) from h).cut
    refine ⟨_, _, ?_, unlinked_holds hcut h.size h.small⟩
    obtain rfl := hcut.left.last_eq_none_iff.mpr rfl
    have hfirst : list.first = some i := (hcut.first_eq_iff.mpr rfl).symm
    have hfree := free_unlinked hcut
    rw [putNext_none] at hfree
    rw [if_neg (by rw [h.size]; simp), hfirst]
    simp only [hcut.deref, Option.bind_eq_bind, Option.bind_some, linkPrevious_eq _ hcut.cells_right, hfree]
    rfl

theorem removeLast (h : Holds heap list ids xs) :
    ∃ heap' list', LList.removeLast heap list = some (heap', list', xs.getLast?.join) ∧
      Becomes heap ids heap' list' xs.dropLast := by
  unfold LList.removeLast
  obtain rfl | ⟨xs, x, rfl⟩ := xs.eq_nil_or_concat'
  · exact ⟨heap, list, by rw [if_pos (h.size_eq_zero_iff.mpr rfl)]; rfl, h.becomes⟩
  · obtain ⟨ids₁, m, i, n, ids₂, rfl, hcut⟩ := h.cut
    have hres := unlinked_holds hcut h.size h.small
    rw [List.append_nil] at hres
    refine ⟨_, _, ?_, by rw [List.dropLast_concat]; exact hres⟩
    obtain rfl := hcut.right.head_eq_none_iff.mpr rfl
    have hlast : list.last = some i := (hcut.last_eq_iff.mpr rfl).symm
    have hfree := free_unlinked hcut
    rw [putPrevious_none] at hfree
    rw [if_neg (by rw [h.size]; simp), hlast]
    simp only [hcut.deref, Option.bind_eq_bind, Option.bind_some, linkNext_eq _ hcut.cells_left, hfree]
    simp [unlinked]

theorem removeAt (h : Holds heap list ids xs) (k : Nat) :
    ∃ heap' list', LList.removeAt heap list k = some (heap', list', xs[k]?.join) ∧
      Becomes heap ids heap' list' (xs.eraseIdx k) := by
  unfold LList.removeAt
  rw [h.size]
  split
  · next hk =>
    rw [List.getElem?_eq_none hk, List.eraseIdx_of_length_le hk]
    exact ⟨heap, list, rfl, h.becomes⟩
  · next hk =>
    obtain ⟨x, ys, zs, rfl, rfl⟩ := eq_append_cons (Nat.lt_of_not_le hk)
    obtain ⟨ids₁, m, i, n, ids₂, rfl, hcut, hget⟩ := h.getEntry
    obtain ⟨heap', list', hrun, hres⟩ := h.removeEntry hcut
    refine ⟨heap', list', ?_, by rwa [eraseIdx_append]⟩
    rw [hget]
    simp only [Option.bind_eq_bind, Option.bind_some, hcut.deref, hrun]
    simp

/-! ### Putting nodes in -/

theorem insertBefore (h : Holds heap list (ids₁ ++ i :: ids₂) (xs ++ x :: ys))
    (hcut : Cut heap list ids₁ xs m i x n ids₂ ys) (hsmall : (xs ++ x :: ys).length + 1 < 2 ^ 32) (data : Option α) :
    Becomes heap (ids₁ ++ i :: ids₂) (inserted heap list m (some i) data).1 (inserted heap list m (some i) data).2
      (xs ++ data :: x :: ys) :=
  inserted_holds hcut.left ((Segment.single hcut.cell).append hcut.right) h.size hsmall data

theorem insertAfter (h : Holds heap list (ids₁ ++ i :: ids₂) (xs ++ x :: ys))
    (hcut : Cut heap list ids₁ xs m i x n ids₂ ys) (hsmall : (xs ++ x :: ys).length + 1 < 2 ^ 32) (data : Option α) :
    Becomes heap (ids₁ ++ i :: ids₂) (inserted heap list (some i) n data).1 (inserted heap list (some i) n data).2
      (xs ++ x :: data :: ys) := by
  have hins := inserted_holds (hcut.left.append (.single hcut.cell)) hcut.right
    (by simpa using h.size) (by simpa using hsmall) data
  simpa using hins

theorem addAt (h : Holds heap list ids xs) (hsmall : k ≤ xs.length → xs.length + 1 < 2 ^ 32) (data : Option α) :
    ∃ heap' list', LList.addAt heap list k data = some (heap', list') ∧
      Becomes heap ids heap' list' (xs.insertIdx k data) := by
  unfold LList.addAt
  rw [h.size]
  split
  · next hk =>
    rw [List.insertIdx_of_length_lt hk]
    exact ⟨heap, list, rfl, h.becomes⟩
  · next hle =>
    split
    · next hk =>
      obtain ⟨x, ys, zs, rfl, rfl⟩ := eq_append_cons hk
      obtain ⟨ids₁, m, i, n, ids₂, rfl, hcut, hget⟩ := h.getEntry
      have hres := h.insertBefore hcut (hsmall (Nat.le_of_lt hk)) data
      refine ⟨_, _, ?_, by rwa [insertIdx_append]⟩
      have hcell : heap.cells i ≠ none := hcut.cell ▸ Option.some_ne_none _
      rw [hget]
      simp only [Option.bind_eq_bind, Option.bind_some, hcut.deref, Arena.alloc_snd,
        linkNext_eq list fun j hj => alloc_cells_ne_none _ (hcut.cells_left j hj)]
      rw [setPrevious_eq (Option.some_ne_none i) fun j hj => putNext_cells_ne_none _ _ (alloc_cells_ne_none _ ?_)]
      · rfl
      · cases hj
        exact hcell
    · next hk =>
      obtain rfl : k = xs.length := by omega
      rw [List.insertIdx_length_self]
      exact h.addLast (hsmall (Nat.le_refl _)) data

theorem addAll {ids2 : List Nat} (h : Holds heap list ids xs) (h2 : Holds heap list2 ids2 ys)
    (hdisj : ∀ i ∈ ids2, i ∉ ids) (hsmall : (xs ++ ys).length < 2 ^ 32) :
    ∃ heap' list', LList.addAll heap list list2 = some (heap', list') ∧ Becomes heap ids heap' list' (xs ++ ys) := by
  let f : LHeap α × LList → Nat → Option (LHeap α × LList) := fun state c => do
    let entry ← LList.getEntry state.1 list2 c
    LList.addLast state.1 state.2 (← LHeap.deref state.1 entry).data
  rw [List.length_append] at hsmall
  suffices hloop : ∀ c, c ≤ ys.length → ∃ heap' list', (List.range c).foldlM f (heap, list) = some (heap', list') ∧
      Becomes heap ids heap' list' (xs ++ ys.take c) by
    obtain ⟨heap', list', hrun, hres⟩ := hloop ys.length (Nat.le_refl _)
    rw [List.take_length] at hres
    exact ⟨heap', list', by rw [LList.addAll, h2.size]; exact hrun, hres⟩
  intro c hc
  induction c with
  | zero => exact ⟨heap, list, rfl, by simpa using h.becomes⟩
  | succ c ih =>
    obtain ⟨heap', list', hrun, ids', h', hframe⟩ := ih (by omega)
    have h2' := h2.of_frame hframe hdisj
    obtain ⟨x, zs, ws, rfl, rfl⟩ := eq_append_cons (show c < ys.length by omega)
    obtain ⟨ids₁, m, i, n, ids₂, rfl, hcut, hget⟩ := h2'.getEntry
    obtain ⟨heap'', list'', hadd, ids'', h'', hframe'⟩ := h'.addLast (by simp at hsmall ⊢; omega) x
    refine ⟨heap'', list'', ?_, ids'', ?_, hframe.trans hframe'⟩
    · rw [List.range_succ, List.foldlM_append, hrun]
      simp [f, hget, hcut.deref, hadd]
    · rw [take_append_cons]
      simpa using h''

end Holds

end Renameutils.LList
