import Renameutils.LListRuns

/-!
# Taking elements out while iterating

`topologic_sort` and `apply_plan` remove some elements of a list while they go through it. The iterator stands at
the node after the one it gave last: the nodes before that are those kept so far, and the ones from there on are as
they were.
-/

namespace Renameutils.LList

open LHeap

variable {α : Type} {heap heap' : LHeap α} {list list' : LList} {it : LListIterator} {i k fuel : Nat}
variable {ids ids₁ ids₂ : List Nat} {xs ys : List (Option α)} {x : Option α} {m n : Option Nat}
variable {drop : Nat → Bool}

/-- `if (drop) it.remove(&it);`. -/
def removeIf (drop : Bool) (heap : LHeap α) (list : LList) (it : LListIterator) : Option (LHeap α × LList) :=
  if drop then iteratorRemove heap list it else some (heap, list)

/-- `while (it.has_next(&it)) { it.next(&it); if (drop) it.remove(&it); }`, where the `k`-th element met is dropped if
`drop k` says so. Gives the data in the order in which `next` gave them. -/
def filterLoop (drop : Nat → Bool) : Nat → Nat → LHeap α → LList → LListIterator →
    Option (LHeap α × LList × List (Option α))
  | 0, _, _, _, _ => none
  | fuel + 1, k, heap, list, it =>
    if iteratorHasNext it then do
      let (it, data) ← iteratorNext heap it
      let (heap, list) ← removeIf (drop k) heap list it
      let (heap, list, visited) ← filterLoop drop fuel (k + 1) heap list it
      some (heap, list, data :: visited)
    else some (heap, list, [])

/-- The elements that stay, if they are numbered from `k` on. -/
def kept (drop : Nat → Bool) (k : Nat) (xs : List (Option α)) : List (Option α) :=
  ((xs.zipIdx k).filter fun p => !drop p.2).map Prod.fst

theorem kept_cons (drop : Nat → Bool) (k : Nat) (x : Option α) (xs : List (Option α)) :
    kept drop k (x :: xs) = if drop k then kept drop (k + 1) xs else x :: kept drop (k + 1) xs := by
  rw [kept, List.zipIdx_cons, List.filter_cons]
  cases drop k <;> rfl

namespace Cut

theorem first_ne (h : Cut heap list ids₁ xs m i x n ids₂ ys) : list.first ≠ n := by
  intro hfirst
  have hmem : ∀ j, list.first = some j → j ∈ ids₁ ++ [i] := by
    intro j hj
    have hhead := (h.left.append (.single h.cell)).linked.forward
    cases hids : ids₁ ++ [i] with
    | nil => simp at hids
    | cons j' js =>
      rw [hids, hj] at hhead
      obtain ⟨heq, -⟩ := hhead.cons_inv
      cases heq
      exact List.mem_cons_self
  have hne : list.first ≠ none := by
    rw [ne_eq, h.whole.head_eq_none_iff]
    simp
  obtain ⟨j, hj⟩ := Option.ne_none_iff_exists'.mp hne
  have hnd := h.whole.nodup
  rw [show ids₁ ++ i :: ids₂ = (ids₁ ++ [i]) ++ ids₂ by simp] at hnd
  exact (List.nodup_append.mp hnd).2.2 j (hmem j hj) j (h.right.mem_of_head (hfirst ▸ hj)) rfl

/-- The node given last is found again, from the next one or as the last of the list. -/
theorem iteratorRemove (h : Cut heap list ids₁ xs m i x n ids₂ ys) (hsize : list.size = (xs ++ x :: ys).length) :
    LList.iteratorRemove heap list { entry := n } = some (unlinked heap list i m n) := by
  rw [LList.iteratorRemove, if_neg h.first_ne]
  split
  · next hn =>
    rw [← h.last_eq_iff.mpr hn]
    exact removeEntry_eq h hsize
  · next hn =>
    obtain _ | ⟨y, ys⟩ := ys
    · exact absurd (h.right.head_eq_none_iff.mpr rfl) hn
    · obtain ⟨j, ids, p, rfl, hnj, hcell, -⟩ := h.right.cons_inv
      cases hnj
      simp only [LHeap.deref, Option.bind_some, hcell, Option.bind_eq_bind]
      exact removeEntry_eq h hsize

end Cut

/-- The loop from the iterator's place on: `xs` are the elements kept before it, `ys` are those to come. -/
theorem filterLoop_spec (h₁ : Segment heap none list.first ids₁ xs m it.entry)
    (h₂ : Segment heap m it.entry ids₂ ys list.last none) (hsize : list.size = (xs ++ ys).length)
    (hsmall : (xs ++ ys).length < 2 ^ 32) (hf : ys.length < fuel) :
    ∃ heap' list', filterLoop drop fuel k heap list it = some (heap', list', ys) ∧
      Becomes heap (ids₁ ++ ids₂) heap' list' (xs ++ kept drop k ys) := by
  induction ys generalizing heap list it ids₁ ids₂ xs m k fuel with
  | nil =>
    obtain ⟨rfl, hentry, -⟩ := h₂.nil_eq
    obtain _ | fuel := fuel
    · cases hf
    refine ⟨heap, list, ?_, ids₁ ++ [], ⟨h₁.append h₂, hsize, hsmall⟩, .refl heap _⟩
    simp [filterLoop, iteratorHasNext, hentry]
  | cons y ys ih =>
    obtain _ | fuel := fuel
    · cases hf
    obtain ⟨i, ids₂, n, rfl, hentry, hcell, h₃⟩ := h₂.cons_inv
    rw [hentry] at h₁
    have hcut : Cut heap list ids₁ xs m i y n ids₂ ys := ⟨h₁, hcell, h₃⟩
    have hf : ys.length < fuel := Nat.lt_of_succ_lt_succ hf
    have hnext : iteratorNext heap it = some ({ entry := n }, y) := by
      rw [iteratorNext, hentry, hcut.deref]
      rfl
    have hhas : iteratorHasNext it = true := by
      simp [iteratorHasNext, hentry]
    rw [kept_cons]
    cases hdrop : drop k with
    | true =>
      -- the node is unlinked, and what is to come begins at the same place
      obtain ⟨hleft, hright⟩ := unlinked_segments hcut
      have hsmall' : (xs ++ ys).length < 2 ^ 32 := by
        rw [List.length_append, List.length_cons] at hsmall
        rw [List.length_append]
        omega
      obtain ⟨heap', list', hrun, ids', hres, hframe⟩ : ∃ heap' list', filterLoop drop fuel (k + 1)
            (unlinked heap list i m n).1 (unlinked heap list i m n).2 { entry := n } = some (heap', list', ys) ∧
          Becomes (unlinked heap list i m n).1 (ids₁ ++ ids₂) heap' list' (xs ++ kept drop (k + 1) ys) :=
        ih hleft hright (unlinked_size hsize hsmall) hsmall' hf
      refine ⟨heap', list', ?_, ids', hres, (unlinked_frame hcut).trans hframe⟩
      rw [filterLoop, if_pos hhas, hnext]
      simp only [Option.bind_eq_bind, Option.bind_some, removeIf, hdrop, if_true, hcut.iteratorRemove hsize, hrun]
    | false =>
      have hleft := hcut.left.append (.single hcell)
      obtain ⟨heap', list', hrun, hres⟩ : ∃ heap' list',
          filterLoop drop fuel (k + 1) heap list { entry := n } = some (heap', list', ys) ∧
          Becomes heap (ids₁ ++ [i] ++ ids₂) heap' list' (xs ++ [y] ++ kept drop (k + 1) ys) :=
        ih hleft h₃ (by simpa using hsize) (by simpa using hsmall) hf
      refine ⟨heap', list', ?_, by simpa using hres⟩
      rw [filterLoop, if_pos hhas, hnext]
      simp only [Option.bind_eq_bind, Option.bind_some, removeIf, hdrop, Bool.false_eq_true, if_false, hrun]

/-- Whichever elements are dropped, every element is visited once, in order, and the others stay, in order. -/
theorem filterLoop_kept (h : WellFormed heap list ids xs) (drop : Nat → Bool) :
    ∃ heap' list' ids', filterLoop drop heap.fuel 0 heap list (iterator list) = some (heap', list', xs) ∧
      WellFormed heap' list' ids' (kept drop 0 xs) := by
  have h := h.holds
  have hf := h.segment.length_lt_fuel
  rw [h.segment.length_eq] at hf
  have hnil : Segment heap none list.first [] [] none (iterator list).entry := .nil none list.first
  obtain ⟨heap', list', hrun, ids', hres, -⟩ := filterLoop_spec hnil h.segment h.size h.small hf
  exact ⟨heap', list', ids', hrun, hres.wellFormed⟩

theorem filterLoop_kept_pair : WellFormed pairHeap pairList [0, 1] [some 1, some 2] ∧
    ∃ heap' list' ids', filterLoop (fun k => k == 0) pairHeap.fuel 0 pairHeap pairList (iterator pairList) =
        some (heap', list', [some 1, some 2]) ∧
      WellFormed heap' list' ids' (kept (fun k => k == 0) 0 [some 1, some 2]) :=
  ⟨pairList_wellFormed, filterLoop_kept pairList_wellFormed fun k => k == 0⟩

end Renameutils.LList
