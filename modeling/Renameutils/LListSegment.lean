import Renameutils.LList
import Renameutils.Lib.DLinked

/-!
# Nodes of a linked list

`Segment heap before head ids xs last after`: the nodes `ids` are linked in both directions and hold the data `xs`
(see `DLinked` for the four ends). A node is linked in between two segments (`Segment.insert`), or taken out from
between them (`Segment.unlink`), by writing the links on both sides of it.
-/

namespace Renameutils.LList

open LHeap

variable {α : Type} {heap heap' : LHeap α} {i : Nat} {ids ids₁ ids₂ : List Nat} {xs xs₁ xs₂ : List (Option α)}
variable {before head last after first m n p q : Option Nat} {x : Option α}

def nextAt (heap : LHeap α) (i : Nat) : Option (Option Nat) := (heap.cells i).map LNode.next
def previousAt (heap : LHeap α) (i : Nat) : Option (Option Nat) := (heap.cells i).map LNode.previous
def dataAt (heap : LHeap α) (i : Nat) : Option (Option α) := (heap.cells i).map LNode.data

section Writes

/-- What `setNext` makes of the heap; nothing if there is no node. -/
def putNext (heap : LHeap α) (node next : Option Nat) : LHeap α :=
  node.elim heap fun i => heap.modify i fun n => { n with next := next }

/-- What `setPrevious` makes of the heap. -/
def putPrevious (heap : LHeap α) (node previous : Option Nat) : LHeap α :=
  node.elim heap fun i => heap.modify i fun n => { n with previous := previous }

theorem write_eq_elim {f : LNode α → LNode α} (hp : p ≠ none) (hi : ∀ i, p = some i → heap.cells i ≠ none) :
    (p.bind fun i => heap.write i f) = some (p.elim heap fun i => heap.modify i f) := by
  obtain ⟨i, rfl⟩ := Option.ne_none_iff_exists'.mp hp
  obtain ⟨node, hnode⟩ := Option.ne_none_iff_exists'.mp (hi i rfl)
  exact Arena.write_eq _ hnode

theorem elim_modify_cells (heap : LHeap α) (p : Option Nat) (f : LNode α → LNode α) (j : Nat) :
    (p.elim heap fun i => heap.modify i f).cells j =
      if p = some j then (heap.cells j).map f else heap.cells j := by
  cases p with
  | none => rfl
  | some i => simp only [Option.elim, Arena.modify, Option.some.injEq, eq_comm]

theorem elim_modify_map {β : Type} {f : LNode α → LNode α} {g : LNode α → β} (hg : ∀ n, g (f n) = g n)
    (heap : LHeap α) (p : Option Nat) :
    (fun j => ((p.elim heap fun i => heap.modify i f).cells j).map g) = fun j => (heap.cells j).map g := by
  funext j
  rw [elim_modify_cells]
  split
  · rw [Option.map_map, show g ∘ f = g from funext hg]
  · rfl

@[simp] theorem putNext_none (heap : LHeap α) (q : Option Nat) : putNext heap none q = heap := rfl
@[simp] theorem putPrevious_none (heap : LHeap α) (q : Option Nat) : putPrevious heap none q = heap := rfl

@[simp] theorem putNext_fresh (heap : LHeap α) (p q : Option Nat) : (putNext heap p q).fresh = heap.fresh := by
  cases p <;> rfl

@[simp] theorem putPrevious_fresh (heap : LHeap α) (p q : Option Nat) :
    (putPrevious heap p q).fresh = heap.fresh := by
  cases p <;> rfl

theorem putNext_cells (heap : LHeap α) (p q : Option Nat) (j : Nat) :
    (putNext heap p q).cells j =
      if p = some j then (heap.cells j).map fun n => { n with next := q } else heap.cells j :=
  elim_modify_cells ..

theorem putPrevious_cells (heap : LHeap α) (p q : Option Nat) (j : Nat) :
    (putPrevious heap p q).cells j =
      if p = some j then (heap.cells j).map fun n => { n with previous := q } else heap.cells j :=
  elim_modify_cells ..

/-- The two writes can be made in any order. -/
theorem putNext_putPrevious (heap : LHeap α) (p q p' q' : Option Nat) :
    putNext (putPrevious heap p q) p' q' = putPrevious (putNext heap p' q') p q := by
  refine Arena.ext ?_ (by simp)
  funext j
  simp only [putNext_cells, putPrevious_cells]
  split <;> split <;> simp [Function.comp_def]

theorem setNext_eq (hp : p ≠ none) (hi : ∀ i, p = some i → heap.cells i ≠ none) :
    setNext heap p q = some (putNext heap p q) := write_eq_elim hp hi

theorem setPrevious_eq (hp : p ≠ none) (hi : ∀ i, p = some i → heap.cells i ≠ none) :
    setPrevious heap p q = some (putPrevious heap p q) := write_eq_elim hp hi

theorem linkNext_eq (list : LList) (hi : ∀ i, p = some i → heap.cells i ≠ none) :
    linkNext heap list p q =
      some (putNext heap p q, { list with first := if p = none then q else list.first }) := by
  unfold linkNext
  split
  · next h =>
    subst h
    rfl
  · next h =>
    rw [setNext_eq h hi]
    rfl

theorem linkPrevious_eq (list : LList) (hi : ∀ i, p = some i → heap.cells i ≠ none) :
    linkPrevious heap list p q =
      some (putPrevious heap p q, { list with last := if p = none then q else list.last }) := by
  unfold linkPrevious
  split
  · next h =>
    subst h
    rfl
  · next h =>
    rw [setPrevious_eq h hi]
    rfl

theorem nextAt_putNext (heap : LHeap α) (p q : Option Nat) (j : Nat) :
    nextAt (putNext heap p q) j = if p = some j then (nextAt heap j).map fun _ => q else nextAt heap j := by
  simp only [nextAt, putNext_cells]
  split <;> simp [Function.comp_def]

@[simp] theorem previousAt_putNext (heap : LHeap α) (p q : Option Nat) :
    previousAt (putNext heap p q) = previousAt heap := by
  refine elim_modify_map (fun n => ?_) heap p
  rfl

@[simp] theorem dataAt_putNext (heap : LHeap α) (p q : Option Nat) : dataAt (putNext heap p q) = dataAt heap := by
  refine elim_modify_map (fun n => ?_) heap p
  rfl

theorem previousAt_putPrevious (heap : LHeap α) (p q : Option Nat) (j : Nat) :
    previousAt (putPrevious heap p q) j =
      if p = some j then (previousAt heap j).map fun _ => q else previousAt heap j := by
  simp only [previousAt, putPrevious_cells]
  split <;> simp [Function.comp_def]

@[simp] theorem nextAt_putPrevious (heap : LHeap α) (p q : Option Nat) :
    nextAt (putPrevious heap p q) = nextAt heap := by
  refine elim_modify_map (fun n => ?_) heap p
  rfl

@[simp] theorem dataAt_putPrevious (heap : LHeap α) (p q : Option Nat) :
    dataAt (putPrevious heap p q) = dataAt heap := by
  refine elim_modify_map (fun n => ?_) heap p
  rfl

end Writes

structure Segment (heap : LHeap α) (before head : Option Nat) (ids : List Nat) (xs : List (Option α))
    (last after : Option Nat) : Prop where
  linked : DLinked (nextAt heap) (previousAt heap) before head ids last after
  data : ids.map (dataAt heap) = xs.map some

namespace Segment

theorem nil (p q : Option Nat) : Segment heap p q [] [] p q := ⟨.nil p q, rfl⟩

theorem nil_eq (h : Segment heap before head ids [] last after) : ids = [] ∧ head = after ∧ last = before := by
  obtain rfl : ids = [] := List.map_eq_nil_iff.mp h.data
  exact ⟨rfl, h.linked.nil_eq⟩

theorem single (h : heap.cells i = some ⟨x, after, before⟩) :
    Segment heap before (some i) [i] [x] (some i) after :=
  ⟨.single (by rw [nextAt, h]; rfl) (by rw [previousAt, h]; rfl), by simp [dataAt, h]⟩

theorem length_eq (h : Segment heap before head ids xs last after) : ids.length = xs.length := by
  simpa using congrArg List.length h.data

theorem append (h : Segment heap before head ids₁ xs₁ m n) (h' : Segment heap m n ids₂ xs₂ last after) :
    Segment heap before head (ids₁ ++ ids₂) (xs₁ ++ xs₂) last after :=
  ⟨h.linked.append h'.linked, by rw [List.map_append, List.map_append, h.data, h'.data]⟩

theorem split (h : Segment heap before head ids (xs₁ ++ xs₂) last after) :
    ∃ ids₁ ids₂ m n, ids = ids₁ ++ ids₂ ∧ Segment heap before head ids₁ xs₁ m n ∧
      Segment heap m n ids₂ xs₂ last after := by
  have hdata := h.data
  rw [List.map_append] at hdata
  obtain ⟨ids₁, ids₂, rfl, hdata₁, hdata₂⟩ := List.map_eq_append_iff.mp hdata
  obtain ⟨m, n, h₁, h₂⟩ := h.linked.split
  exact ⟨ids₁, ids₂, m, n, rfl, ⟨h₁, hdata₁⟩, ⟨h₂, hdata₂⟩⟩

theorem cons_inv (h : Segment heap before head ids (x :: xs) last after) :
    ∃ i ids' p, ids = i :: ids' ∧ head = some i ∧ heap.cells i = some ⟨x, p, before⟩ ∧
      Segment heap (some i) p ids' xs last after := by
  obtain ⟨i, ids', rfl, hi, hids⟩ := List.map_eq_cons_iff.mp h.data
  obtain ⟨rfl, hprevious, p, hnext, h'⟩ := h.linked.cons_inv
  refine ⟨i, ids', p, rfl, rfl, ?_, h', hids⟩
  obtain ⟨node, hnode, rfl⟩ := Option.map_eq_some_iff.mp hi
  rw [nextAt, hnode] at hnext
  rw [previousAt, hnode] at hprevious
  cases hnext
  cases hprevious
  exact hnode

theorem concat_inv (h : Segment heap before head ids (xs ++ [x]) last after) :
    ∃ i ids' p, ids = ids' ++ [i] ∧ last = some i ∧ heap.cells i = some ⟨x, after, p⟩ ∧
      Segment heap before head ids' xs p (some i) := by
  obtain ⟨ids₁, ids₂, m, n, rfl, h₁, h₂⟩ := h.split
  obtain ⟨i, ids', p, rfl, rfl, hcell, h₃⟩ := h₂.cons_inv
  obtain ⟨rfl, rfl, rfl⟩ := h₃.nil_eq
  exact ⟨i, ids₁, m, rfl, rfl, hcell, h₁⟩

theorem congr (h : Segment heap before head ids xs last after) (hc : ∀ i ∈ ids, heap'.cells i = heap.cells i) :
    Segment heap' before head ids xs last after := by
  refine ⟨h.linked.congr (fun i hi => ?_) fun i hi => ?_, (List.map_congr_left fun i hi => ?_).trans h.data⟩
  · rw [nextAt, hc i hi, nextAt]
  · rw [previousAt, hc i hi, previousAt]
  · rw [dataAt, hc i hi, dataAt]

theorem cells_ne_none (h : Segment heap before head ids xs last after) (hi : i ∈ ids) : heap.cells i ≠ none := by
  have hdata : dataAt heap i ∈ xs.map some := h.data ▸ List.mem_map_of_mem hi
  obtain ⟨x, -, hx⟩ := List.mem_map.mp hdata
  intro hnone
  rw [dataAt, hnone] at hx
  cases hx

theorem lt_fresh (h : Segment heap before head ids xs last after) (hi : i ∈ ids) : i < heap.fresh := by
  obtain ⟨node, hnode⟩ := Option.ne_none_iff_exists'.mp (h.cells_ne_none hi)
  exact Arena.lt_fresh hnode

theorem nodup (h : Segment heap none head ids xs last after) : ids.Nodup := h.linked.nodup

theorem mem_of_head (h : Segment heap before head ids xs last none) (hi : head = some i) : i ∈ ids :=
  List.mem_of_mem_head? (by rw [h.linked.head?_eq, hi]; rfl)

theorem mem_of_last (h : Segment heap none head ids xs last after) (hi : last = some i) : i ∈ ids :=
  List.mem_of_getLast? (by rw [h.linked.getLast?_eq, hi])

theorem last_eq_none_iff (h : Segment heap none head ids xs last after) : last = none ↔ xs = [] := by
  rw [h.linked.last_eq_none_iff, ← List.length_eq_zero_iff, h.length_eq, List.length_eq_zero_iff]

theorem head_eq_none_iff (h : Segment heap before head ids xs last none) : head = none ↔ xs = [] := by
  rw [h.linked.head_eq_none_iff, ← List.length_eq_zero_iff, h.length_eq, List.length_eq_zero_iff]

theorem length_lt_fuel (h : Segment heap none head ids xs last after) : ids.length < heap.fuel :=
  Nat.lt_succ_of_le (Arena.length_le_fresh h.nodup fun _ hi => h.cells_ne_none hi)

section Updates

theorem alloc (h : Segment heap before head ids xs last after) (node : LNode α) :
    Segment (heap.alloc node).1 before head ids xs last after :=
  h.congr fun _ hi => Arena.alloc_cells_ne _ (Nat.ne_of_lt (h.lt_fresh hi))

theorem erase (h : Segment heap before head ids xs last after) (hi : i ∉ ids) :
    Segment (heap.erase i) before head ids xs last after :=
  h.congr fun _ hj => Arena.erase_cells_ne fun hji => hi (hji ▸ hj)

theorem putNext_of_notMem (h : Segment heap before head ids xs last after) (hp : ∀ i ∈ ids, p ≠ some i)
    (q : Option Nat) : Segment (putNext heap p q) before head ids xs last after :=
  h.congr fun i hi => by rw [putNext_cells, if_neg (hp i hi)]

theorem putPrevious_of_notMem (h : Segment heap before head ids xs last after) (hp : ∀ i ∈ ids, p ≠ some i)
    (q : Option Nat) : Segment (putPrevious heap p q) before head ids xs last after :=
  h.congr fun i hi => by rw [putPrevious_cells, if_neg (hp i hi)]

/-- The segment leads to `q` now; if it is empty, the list begins at `q`. -/
theorem putNext (h : Segment heap none head ids xs last after) (q : Option Nat) :
    Segment (putNext heap last q) none (if last = none then q else head) ids xs last q := by
  refine ⟨h.linked.retarget (fun i hi => ?_) (fun i _ hi => ?_) fun i _ => by rw [previousAt_putNext], ?_⟩
  · have hnext := h.linked.forward.isSome_of_mem (h.mem_of_last hi)
    obtain ⟨p, hp⟩ := Option.isSome_iff_exists.mp hnext
    rw [nextAt_putNext, if_pos hi, hp]
    rfl
  · rw [nextAt_putNext, if_neg hi]
  · rw [dataAt_putNext]
    exact h.data

theorem putPrevious (h : Segment heap before head ids xs last none) (q : Option Nat) :
    Segment (putPrevious heap head q) q head ids xs (if head = none then q else last) none := by
  refine ⟨h.linked.retarget_prev (fun i hi => ?_) (fun i _ hi => ?_) fun i _ => by rw [nextAt_putPrevious], ?_⟩
  · have hprevious := h.linked.backward.isSome_of_mem (List.mem_reverse.mpr (h.mem_of_head hi))
    obtain ⟨p, hp⟩ := Option.isSome_iff_exists.mp hprevious
    rw [previousAt_putPrevious, if_pos hi, hp]
    rfl
  · rw [previousAt_putPrevious, if_neg hi]
  · rw [dataAt_putPrevious]
    exact h.data

theorem insert (h : Segment heap none first ids₁ xs₁ m n) (h' : Segment heap m n ids₂ xs₂ last none) (x : Option α) :
    Segment (LList.putPrevious (LList.putNext (heap.alloc ⟨x, n, m⟩).1 m (some heap.fresh)) n (some heap.fresh)) none
      (if m = none then some heap.fresh else first) (ids₁ ++ heap.fresh :: ids₂) (xs₁ ++ x :: xs₂)
      (if n = none then some heap.fresh else last) none := by
  have hnd := (h.append h').nodup
  have hm : ∀ i, m = some i → i ∈ ids₁ := fun i hi => h.mem_of_last hi
  have hn : ∀ i, n = some i → i ∈ ids₂ := fun i hi => h'.mem_of_head hi
  have hlt₁ : ∀ i ∈ ids₁, i < heap.fresh := fun i hi => h.lt_fresh hi
  have hlt₂ : ∀ i ∈ ids₂, i < heap.fresh := fun i hi => h'.lt_fresh hi
  have hdisj : ∀ i ∈ ids₁, i ∉ ids₂ := fun i hi hi' => (List.nodup_append.mp hnd).2.2 i hi i hi' rfl
  have hnew : Segment (heap.alloc ⟨x, n, m⟩).1 m (some heap.fresh) [heap.fresh] [x] (some heap.fresh) n :=
    single (Arena.alloc_cells_fresh ..)
  have hm' : ∀ i ∈ [heap.fresh], m ≠ some i := fun i hi hmi =>
    Nat.ne_of_lt (hlt₁ i (hm i hmi)) (List.mem_singleton.mp hi)
  have hn' : ∀ i ∈ [heap.fresh], n ≠ some i := fun i hi hni =>
    Nat.ne_of_lt (hlt₂ i (hn i hni)) (List.mem_singleton.mp hi)
  -- the left segment leads to the new node, and the right one back to it
  have h₁ := ((h.alloc ⟨x, n, m⟩).putNext (some heap.fresh)).putPrevious_of_notMem
    (fun i hi hni => hdisj i hi (hn i hni)) (some heap.fresh)
  have h₂ := (hnew.putNext_of_notMem hm' (some heap.fresh)).putPrevious_of_notMem hn' (some heap.fresh)
  have h₃ := ((h'.alloc ⟨x, n, m⟩).putNext_of_notMem (fun i hi hmi => hdisj i (hm i hmi) hi)
    (some heap.fresh)).putPrevious (some heap.fresh)
  exact h₁.append (h₂.append h₃)

theorem unlink (h : Segment heap none first ids₁ xs₁ m (some i)) (hi : heap.cells i = some ⟨x, n, m⟩)
    (h' : Segment heap (some i) n ids₂ xs₂ last none) :
    Segment ((LList.putPrevious (LList.putNext heap m n) n m).erase i) none (if m = none then n else first) ids₁ xs₁ m
      n ∧
    Segment ((LList.putPrevious (LList.putNext heap m n) n m).erase i) m n ids₂ xs₂ (if n = none then m else last)
      none := by
  have hnd := (h.append ((single hi).append h')).nodup
  have hm : ∀ j, m = some j → j ∈ ids₁ := fun j hj => h.mem_of_last hj
  have hn : ∀ j, n = some j → j ∈ ids₂ := fun j hj => h'.mem_of_head hj
  obtain ⟨-, hnd', hdisj⟩ := List.nodup_append.mp hnd
  have hi₁ : i ∉ ids₁ := fun hi => hdisj i hi i List.mem_cons_self rfl
  have hi₂ : i ∉ ids₂ := (List.nodup_cons.mp hnd').1
  have hdisj' : ∀ j ∈ ids₁, j ∉ ids₂ := fun j hj hj' => hdisj j hj j (List.mem_cons_of_mem i hj') rfl
  have h₁ := ((h.putNext n).putPrevious_of_notMem (fun j hj hnj => hdisj' j hj (hn j hnj)) m).erase hi₁
  have h₂ := ((h'.putNext_of_notMem (fun j hj hmj => hdisj' j (hm j hmj) hj) n).putPrevious m).erase hi₂
  exact ⟨h₁, h₂⟩

end Updates

end Segment

end Renameutils.LList
