import Renameutils.LListSegment

/-!
# What the operations of the linked list do

`Holds heap list ids xs`: the nodes `ids` are those of the list, from its first to its last, and `xs` are their data.
All that puts a node in is `inserted`, and all that takes one out is `unlinked`. There is one lemma for each
operation.
-/

namespace Renameutils.LList

open LHeap

variable {α : Type} {heap heap' heap'' : LHeap α} {list list' list2 : LList} {i k fuel : Nat}
variable {ids ids' ids'' : List Nat}
variable {xs ys zs : List (Option α)} {x data : Option α} {m n node : Option Nat}

structure Holds (heap : LHeap α) (list : LList) (ids : List Nat) (xs : List (Option α)) : Prop where
  segment : Segment heap none list.first ids xs list.last none
  size : list.size = xs.length
  small : xs.length < 2 ^ 32

/-- Between two heaps a list has changed from the nodes `ids` to `ids'`, and no node of another list has. -/
structure Frame (heap heap' : LHeap α) (ids ids' : List Nat) : Prop where
  kept : ∀ i, i ∉ ids → heap.cells i ≠ none → heap'.cells i = heap.cells i
  new : ∀ i ∈ ids', i ∈ ids ∨ heap.cells i = none

/-- The list with the nodes `ids` has become one that holds `xs`. -/
def Becomes (heap : LHeap α) (ids : List Nat) (heap' : LHeap α) (list' : LList) (xs : List (Option α)) : Prop :=
  ∃ ids', Holds heap' list' ids' xs ∧ Frame heap heap' ids ids'

namespace Frame

theorem refl (heap : LHeap α) (ids : List Nat) : Frame heap heap ids ids :=
  ⟨fun _ _ _ => rfl, fun _ hi => .inl hi⟩

theorem trans (h : Frame heap heap' ids ids') (h' : Frame heap' heap'' ids' ids'') : Frame heap heap'' ids ids'' := by
  have hids : ∀ i, i ∉ ids → heap.cells i ≠ none → i ∉ ids' := fun i hi hcell hi' =>
    (h.new i hi').elim hi hcell
  refine ⟨fun i hi hcell => ?_, fun i hi => ?_⟩
  · have hkept := h.kept i hi hcell
    rw [h'.kept i (hids i hi hcell) (hkept ▸ hcell), hkept]
  · by_cases hold : i ∈ ids
    · exact .inl hold
    · by_contra hcell
      have hcell : heap.cells i ≠ none := fun hnone => hcell (.inr hnone)
      rcases h'.new i hi with hi' | hnone
      · exact hids i hold hcell hi'
      · exact hcell (h.kept i hold hcell ▸ hnone)

theorem segment {before head last after : Option Nat} {ids₂ : List Nat} (h : Frame heap heap' ids ids')
    (hs : Segment heap before head ids₂ xs last after) (hdisj : ∀ i ∈ ids₂, i ∉ ids) :
    Segment heap' before head ids₂ xs last after :=
  hs.congr fun i hi => h.kept i (hdisj i hi) (hs.cells_ne_none hi)

end Frame

namespace Holds

theorem new : Holds (heap : LHeap α) LList.new [] [] := ⟨.nil none none, rfl, by simp⟩

theorem becomes (h : Holds heap list ids xs) : Becomes heap ids heap list xs := ⟨ids, h, .refl heap ids⟩

theorem nodup (h : Holds heap list ids xs) : ids.Nodup := h.segment.nodup

theorem size_eq_zero_iff (h : Holds heap list ids xs) : list.size = 0 ↔ xs = [] := by
  rw [h.size, List.length_eq_zero_iff]

theorem of_frame (h : Holds heap list ids xs) {ids₂ ids₂' : List Nat} (hf : Frame heap heap' ids₂ ids₂')
    (hdisj : ∀ i ∈ ids, i ∉ ids₂) : Holds heap' list ids xs :=
  ⟨hf.segment h.segment hdisj, h.size, h.small⟩

theorem sizeUp (h : list.size = k) (hk : k + 1 < 2 ^ 32) : list.sizeUp = k + 1 :=
  uint32_eq (by rw [h]; rfl) hk

theorem sizeDown (h : list.size = k + 1) (hk : k + 1 < 2 ^ 32) : list.sizeDown = k :=
  uint32_eq (by rw [h]; omega) (by omega)

end Holds

section Insert

def inserted (heap : LHeap α) (list : LList) (m n : Option Nat) (data : Option α) : LHeap α × LList :=
  (putPrevious (putNext (heap.alloc ⟨data, n, m⟩).1 m (some heap.fresh)) n (some heap.fresh),
    { first := if m = none then some heap.fresh else list.first
      last := if n = none then some heap.fresh else list.last
      size := list.sizeUp })

theorem inserted_holds {ids₁ ids₂ : List Nat} (h : Segment heap none list.first ids₁ xs m n)
    (h' : Segment heap m n ids₂ ys list.last none) (hsize : list.size = (xs ++ ys).length)
    (hsmall : (xs ++ ys).length + 1 < 2 ^ 32) (data : Option α) :
    Becomes heap (ids₁ ++ ids₂) (inserted heap list m n data).1 (inserted heap list m n data).2 (xs ++ data :: ys) := by
  have hlen : (xs ++ data :: ys).length = (xs ++ ys).length + 1 := by
    simp only [List.length_append, List.length_cons]
    omega
  refine ⟨ids₁ ++ heap.fresh :: ids₂, ⟨h.insert h' data, ?_, hlen ▸ hsmall⟩, fun i hi hcell => ?_, fun i hi => ?_⟩
  · rw [hlen]
    exact Holds.sizeUp hsize hsmall
  · have hfresh : i ≠ heap.fresh := fun hif => hcell (hif ▸ Arena.cells_fresh heap)
    have hm : m ≠ some i := fun hmi => hi (List.mem_append_left _ (h.mem_of_last hmi))
    have hn : n ≠ some i := fun hni => hi (List.mem_append_right _ (h'.mem_of_head hni))
    rw [inserted, putPrevious_cells, if_neg hn, putNext_cells, if_neg hm, Arena.alloc_cells_ne _ hfresh]
  · rcases List.mem_append.mp hi with hi | hi
    · exact .inl (List.mem_append_left _ hi)
    · rcases List.mem_cons.mp hi with rfl | hi
      · exact .inr (Arena.cells_fresh heap)
      · exact .inl (List.mem_append_right _ hi)

theorem alloc_cells_ne_none (node : LNode α) (hi : heap.cells i ≠ none) : (heap.alloc node).1.cells i ≠ none := by
  obtain ⟨a, ha⟩ := Option.ne_none_iff_exists'.mp hi
  rw [Arena.alloc_cells_of_some node ha]
  exact Option.some_ne_none a

theorem putNext_cells_ne_none (p q : Option Nat) (hi : heap.cells i ≠ none) :
    (putNext heap p q).cells i ≠ none := by
  rw [putNext_cells]
  split <;> simpa using hi

theorem putPrevious_cells_ne_none (p q : Option Nat) (hi : heap.cells i ≠ none) :
    (putPrevious heap p q).cells i ≠ none := by
  rw [putPrevious_cells]
  split <;> simpa using hi

theorem alloc_eq (heap : LHeap α) (node : LNode α) : heap.alloc node = ((heap.alloc node).1, heap.fresh) := rfl

theorem addFirst_eq (h : Holds heap list ids xs) (data : Option α) :
    addFirst heap list data = some (inserted heap list none list.first data) := by
  have hzero : list.size = 0 ↔ list.first = none := by rw [h.size_eq_zero_iff, h.segment.head_eq_none_iff]
  unfold addFirst inserted
  split
  · next hsize =>
    rw [hzero.mp hsize]
    rfl
  · next hsize =>
    have hfirst : list.first ≠ none := fun hnone => hsize (hzero.mpr hnone)
    simp only [Arena.alloc_snd, putNext_none, if_neg hfirst]
    rw [setPrevious_eq hfirst fun i hi => alloc_cells_ne_none _ (h.segment.cells_ne_none (h.segment.mem_of_head hi))]
    rfl

theorem addLastEntry_eq (h : Holds heap list ids xs) (data : Option α) :
    addLastEntry heap list data = some (inserted heap list list.last none data) := by
  have hzero : list.size = 0 ↔ list.last = none := by rw [h.size_eq_zero_iff, h.segment.last_eq_none_iff]
  unfold addLastEntry inserted
  split
  · next hsize =>
    rw [hzero.mp hsize]
    rfl
  · next hsize =>
    have hlast : list.last ≠ none := fun hnone => hsize (hzero.mpr hnone)
    simp only [Arena.alloc_snd, putPrevious_none, if_neg hlast]
    rw [setNext_eq hlast fun i hi => alloc_cells_ne_none _ (h.segment.cells_ne_none (h.segment.mem_of_last hi))]
    rfl

theorem addBetween_eq (hm : ∀ i, m = some i → heap.cells i ≠ none) (hn : ∀ i, n = some i → heap.cells i ≠ none)
    (data : Option α) :
    LNode.addBetween heap list m n data =
      some ((inserted heap list m n data).1, (inserted heap list m n data).2, some heap.fresh) := by
  rw [LNode.addBetween, alloc_eq]
  simp only [linkPrevious_eq list fun i hi => alloc_cells_ne_none _ (hn i hi), Option.bind_eq_bind, Option.bind_some]
  rw [linkNext_eq _ fun i hi => putPrevious_cells_ne_none _ _ (alloc_cells_ne_none _ (hm i hi)), putNext_putPrevious]
  rfl

end Insert

namespace Holds

theorem addFirst (h : Holds heap list ids xs) (hsmall : xs.length + 1 < 2 ^ 32) (data : Option α) :
    ∃ heap' list', LList.addFirst heap list data = some (heap', list') ∧
      Becomes heap ids heap' list' (data :: xs) :=
  have hnil : Segment heap none list.first [] [] none list.first := .nil none list.first
  ⟨_, _, addFirst_eq h data, inserted_holds hnil h.segment h.size hsmall data⟩

theorem addLast (h : Holds heap list ids xs) (hsmall : xs.length + 1 < 2 ^ 32) (data : Option α) :
    ∃ heap' list', LList.addLast heap list data = some (heap', list') ∧
      Becomes heap ids heap' list' (xs ++ [data]) := by
  have hnil : Segment heap list.last none [] [] list.last none := .nil list.last none
  have hins := inserted_holds h.segment hnil (by simpa using h.size) (by simpa using hsmall) data
  rw [List.append_nil] at hins
  exact ⟨_, _, addLastEntry_eq h data, hins⟩

end Holds

/-- The node `i` with the data `x` is the one after those of `xs`. -/
structure Cut (heap : LHeap α) (list : LList) (ids₁ : List Nat) (xs : List (Option α)) (m : Option Nat) (i : Nat)
    (x : Option α) (n : Option Nat) (ids₂ : List Nat) (ys : List (Option α)) : Prop where
  left : Segment heap none list.first ids₁ xs m (some i)
  cell : heap.cells i = some ⟨x, n, m⟩
  right : Segment heap (some i) n ids₂ ys list.last none

theorem Holds.cut (h : Holds heap list ids (xs ++ x :: ys)) :
    ∃ ids₁ m i n ids₂, ids = ids₁ ++ i :: ids₂ ∧ Cut heap list ids₁ xs m i x n ids₂ ys := by
  obtain ⟨ids₁, ids₂, m, n, rfl, hleft, hright⟩ := h.segment.split
  obtain ⟨i, ids₂, p, rfl, rfl, hcell, hright⟩ := hright.cons_inv
  exact ⟨ids₁, m, i, p, ids₂, rfl, hleft, hcell, hright⟩

namespace Cut

variable {ids₁ ids₂ : List Nat}

theorem whole (h : Cut heap list ids₁ xs m i x n ids₂ ys) :
    Segment heap none list.first (ids₁ ++ i :: ids₂) (xs ++ x :: ys) list.last none :=
  h.left.append ((Segment.single h.cell).append h.right)

theorem notMem (h : Cut heap list ids₁ xs m i x n ids₂ ys) : i ∉ ids₁ ∧ i ∉ ids₂ := by
  obtain ⟨-, hnd, hdisj⟩ := List.nodup_append.mp h.whole.nodup
  exact ⟨fun hi => hdisj i hi i List.mem_cons_self rfl, (List.nodup_cons.mp hnd).1⟩

theorem first_eq_iff (h : Cut heap list ids₁ xs m i x n ids₂ ys) : some i = list.first ↔ m = none := by
  constructor
  · intro hi
    rw [h.left.last_eq_none_iff]
    cases xs with
    | nil => rfl
    | cons a xs =>
      obtain ⟨j, ids, p, rfl, hfirst, -⟩ := h.left.cons_inv
      cases hi.trans hfirst
      exact absurd List.mem_cons_self h.notMem.1
  · rintro rfl
    obtain rfl := h.left.last_eq_none_iff.mp rfl
    exact h.left.nil_eq.2.1.symm

theorem last_eq_iff (h : Cut heap list ids₁ xs m i x n ids₂ ys) : some i = list.last ↔ n = none := by
  constructor
  · intro hi
    rw [h.right.head_eq_none_iff]
    obtain rfl | ⟨ys, a, rfl⟩ := ys.eq_nil_or_concat'
    · rfl
    · obtain ⟨j, ids, p, rfl, hlast, -⟩ := h.right.concat_inv
      cases hi.trans hlast
      exact absurd (List.mem_append_right ids (List.mem_singleton_self i)) h.notMem.2
  · rintro rfl
    obtain rfl := h.right.head_eq_none_iff.mp rfl
    exact h.right.nil_eq.2.2.symm

theorem cells_left (h : Cut heap list ids₁ xs m i x n ids₂ ys) (j : Nat) (hj : m = some j) : heap.cells j ≠ none :=
  h.left.cells_ne_none (h.left.mem_of_last hj)

theorem cells_right (h : Cut heap list ids₁ xs m i x n ids₂ ys) (j : Nat) (hj : n = some j) : heap.cells j ≠ none :=
  h.right.cells_ne_none (h.right.mem_of_head hj)

theorem deref (h : Cut heap list ids₁ xs m i x n ids₂ ys) : LHeap.deref heap (some i) = some ⟨x, n, m⟩ := h.cell

end Cut

section Unlink

variable {ids₁ ids₂ : List Nat}

def unlinked (heap : LHeap α) (list : LList) (i : Nat) (m n : Option Nat) : LHeap α × LList :=
  ((putPrevious (putNext heap m n) n m).erase i,
    { first := if m = none then n else list.first
      last := if n = none then m else list.last
      size := list.sizeDown })

theorem unlinked_segments (h : Cut heap list ids₁ xs m i x n ids₂ ys) :
    Segment (unlinked heap list i m n).1 none (unlinked heap list i m n).2.first ids₁ xs m n ∧
    Segment (unlinked heap list i m n).1 m n ids₂ ys (unlinked heap list i m n).2.last none :=
  h.left.unlink h.cell h.right

theorem unlinked_frame (h : Cut heap list ids₁ xs m i x n ids₂ ys) :
    Frame heap (unlinked heap list i m n).1 (ids₁ ++ i :: ids₂) (ids₁ ++ ids₂) := by
  refine ⟨fun j hj hcell => ?_, fun j hj => .inl ?_⟩
  · have hij : j ≠ i := fun hji => hj (hji ▸ List.mem_append_right _ List.mem_cons_self)
    have hm : m ≠ some j := fun hmj => hj (List.mem_append_left _ (h.left.mem_of_last hmj))
    have hn : n ≠ some j := fun hnj =>
      hj (List.mem_append_right _ (List.mem_cons_of_mem _ (h.right.mem_of_head hnj)))
    rw [unlinked, Arena.erase_cells_ne hij, putPrevious_cells, if_neg hn, putNext_cells, if_neg hm]
  · exact (List.mem_append.mp hj).elim (List.mem_append_left _)
      fun hj => List.mem_append_right _ (List.mem_cons_of_mem _ hj)

theorem unlinked_size (hsize : list.size = (xs ++ x :: ys).length) (hsmall : (xs ++ x :: ys).length < 2 ^ 32) :
    (unlinked heap list i m n).2.size = (xs ++ ys).length := by
  have hlen : (xs ++ x :: ys).length = (xs ++ ys).length + 1 := by
    simp only [List.length_append, List.length_cons]
    omega
  exact Holds.sizeDown (hsize.trans hlen) (hlen ▸ hsmall)

theorem unlinked_holds (h : Cut heap list ids₁ xs m i x n ids₂ ys) (hsize : list.size = (xs ++ x :: ys).length)
    (hsmall : (xs ++ x :: ys).length < 2 ^ 32) :
    Becomes heap (ids₁ ++ i :: ids₂) (unlinked heap list i m n).1 (unlinked heap list i m n).2 (xs ++ ys) := by
  obtain ⟨hleft, hright⟩ := unlinked_segments h
  have hlen : (xs ++ ys).length ≤ (xs ++ x :: ys).length := by simp
  exact ⟨ids₁ ++ ids₂, ⟨hleft.append hright, unlinked_size hsize hsmall, by omega⟩, unlinked_frame h⟩

theorem freeNode_eq (hi : heap.cells i ≠ none) : freeNode heap (some i) = some (heap.erase i) := by
  obtain ⟨a, ha⟩ := Option.ne_none_iff_exists'.mp hi
  exact Arena.free_eq ha

theorem free_unlinked (h : Cut heap list ids₁ xs m i x n ids₂ ys) :
    freeNode (putPrevious (putNext heap m n) n m) (some i) = some (unlinked heap list i m n).1 :=
  freeNode_eq (putPrevious_cells_ne_none _ _ (putNext_cells_ne_none _ _ (h.cell ▸ Option.some_ne_none _)))

/-- Whichever ends of the list `llist_remove_entry` looks at, it links the two sides of the node to each other. -/
theorem unlinkEntry_eq (h : Cut heap list ids₁ xs m i x n ids₂ ys) (hsize : list.size = (xs ++ x :: ys).length) :
    unlinkEntry heap list (some i) = some (putPrevious (putNext heap m n) n m,
      { list with first := if m = none then n else list.first, last := if n = none then m else list.last }) := by
  unfold unlinkEntry
  split
  · next hone =>
    obtain ⟨rfl, rfl⟩ : xs = [] ∧ ys = [] := by
      rw [hone, List.length_append, List.length_cons] at hsize
      exact ⟨List.length_eq_zero_iff.mp (by omega), List.length_eq_zero_iff.mp (by omega)⟩
    obtain rfl := h.left.last_eq_none_iff.mpr rfl
    obtain rfl := h.right.head_eq_none_iff.mpr rfl
    rfl
  · next hone =>
    have hboth : m = none → n ≠ none := by
      intro hm hn
      obtain rfl := h.left.last_eq_none_iff.mp hm
      obtain rfl := h.right.head_eq_none_iff.mp hn
      exact hone hsize
    split
    · next hfirst =>
      obtain rfl := h.first_eq_iff.mp hfirst
      simp only [h.deref, Option.bind_eq_bind, Option.bind_some]
      rw [setPrevious_eq (hboth rfl) h.cells_right, if_neg (hboth rfl)]
      rfl
    · next hfirst =>
      have hm : m ≠ none := fun hm => hfirst (h.first_eq_iff.mpr hm)
      split
      · next hlast =>
        obtain rfl := h.last_eq_iff.mp hlast
        simp only [h.deref, Option.bind_eq_bind, Option.bind_some]
        rw [setNext_eq hm h.cells_left]
        rfl
      · next hlast =>
        have hn : n ≠ none := fun hn => hlast (h.last_eq_iff.mpr hn)
        simp only [h.deref, Option.bind_eq_bind, Option.bind_some]
        rw [setPrevious_eq hn h.cells_right, if_neg hn]
        simp only [Option.bind_some]
        rw [setNext_eq hm fun j hj => putPrevious_cells_ne_none _ _ (h.cells_left j hj), putNext_putPrevious]
        rfl

theorem removeEntry_eq (h : Cut heap list ids₁ xs m i x n ids₂ ys) (hsize : list.size = (xs ++ x :: ys).length) :
    removeEntry heap list (some i) = some (unlinked heap list i m n) := by
  rw [removeEntry, unlinkEntry_eq h hsize]
  simp only [Option.bind_eq_bind, Option.bind_some]
  rw [free_unlinked h]
  rfl

end Unlink

end Renameutils.LList
