import Renameutils.LListOps

/-!
# The loops over a linked list

The loops that look for data stop at the first node that holds them. `llist_clear` frees every node, `llist_clone`
makes a new one for each, and `llist_reverse` swaps data from both ends inwards until the two ends meet.
-/

namespace Renameutils.LList

open LHeap

variable {α : Type} {heap heap' : LHeap α} {list list' : LList} {i j k fuel : Nat}
variable {ids ids₁ ids₂ : List Nat} {xs ys zs : List (Option α)} {x data : Option α}
variable {before head last after m n junk : Option Nat}

section Search

variable [DecidableEq α] {link : LNode α → Option Nat} {step index : Int}

theorem searchLoop_found (hlinked : Linked (fun i => (heap.cells i).map link) head (ids₁ ++ i :: ids₂) after)
    (hdata : (ids₁ ++ i :: ids₂).map (dataAt heap) = (xs ++ data :: ys).map some) (hlen : ids₁.length = xs.length)
    (hnot : data ∉ xs) (hindex : IsInt32 index) (hf : ids₁.length < fuel) :
    searchLoop heap data link step fuel head index = some (some i, int32 (index + step * ids₁.length)) := by
  induction ids₁ generalizing head xs index fuel with
  | nil =>
    obtain _ | fuel := fuel
    · cases hf
    obtain rfl : xs = [] := List.length_eq_zero_iff.mp hlen.symm
    obtain ⟨rfl, -⟩ := hlinked.cons_inv
    obtain ⟨hi, -⟩ := List.cons.inj hdata
    obtain ⟨node, hnode, rfl⟩ := Option.map_eq_some_iff.mp hi
    simp [searchLoop, hnode, int32_eq hindex.1 hindex.2]
  | cons j ids₁ ih =>
    obtain _ | fuel := fuel
    · cases hf
    obtain _ | ⟨a, xs⟩ := xs
    · cases hlen
    obtain ⟨rfl, p, hp, hlinked⟩ := hlinked.cons_inv
    obtain ⟨hj, hrest⟩ := List.cons.inj hdata
    obtain ⟨node, hnode, rfl⟩ := Option.map_eq_some_iff.mp hj
    obtain rfl : link node = p := by
      rw [hnode] at hp
      exact Option.some.inj hp
    have hne : node.data ≠ data := fun h => hnot (h ▸ List.mem_cons_self)
    have hrun := ih hlinked hrest (Nat.succ.inj hlen) (fun h => hnot (List.mem_cons_of_mem _ h))
      (isInt32_int32 (index + step)) (Nat.lt_of_succ_lt_succ hf)
    simp only [searchLoop, hnode, Option.bind_eq_bind, Option.bind_some, if_neg hne]
    rw [hrun, int32_add, List.length_cons, Int.add_assoc, Int.natCast_succ, Int.mul_add, Int.mul_one,
      Int.add_comm step]

theorem searchLoop_not_found (hlinked : Linked (fun i => (heap.cells i).map link) head ids none)
    (hdata : ids.map (dataAt heap) = xs.map some) (hnot : data ∉ xs) (hf : ids.length < fuel) (index : Int) :
    ∃ index', searchLoop heap data link step fuel head index = some (none, index') := by
  induction ids generalizing head xs index fuel with
  | nil =>
    obtain _ | fuel := fuel
    · cases hf
    cases hlinked
    exact ⟨index, rfl⟩
  | cons j ids ih =>
    obtain _ | fuel := fuel
    · cases hf
    obtain ⟨a, xs, rfl, ha, hxs⟩ := List.map_eq_cons_iff.mp hdata.symm
    obtain ⟨rfl, p, hp, hlinked⟩ := hlinked.cons_inv
    obtain ⟨node, hnode, rfl⟩ := Option.map_eq_some_iff.mp ha.symm
    obtain rfl : link node = p := by
      rw [hnode] at hp
      exact Option.some.inj hp
    have hne : node.data ≠ data := fun h => hnot (h ▸ List.mem_cons_self)
    obtain ⟨index', hrun⟩ := ih hlinked hxs.symm (fun h => hnot (List.mem_cons_of_mem _ h)) (Nat.lt_of_succ_lt_succ hf)
      (int32 (index + step))
    exact ⟨index', by simp only [searchLoop, hnode, Option.bind_eq_bind, Option.bind_some, if_neg hne, hrun]⟩

namespace Holds

theorem search_found (h : Holds heap list ids (xs ++ data :: ys)) (hnot : data ∉ xs) :
    ∃ ids₁ m i n ids₂, ids = ids₁ ++ i :: ids₂ ∧ Cut heap list ids₁ xs m i data n ids₂ ys ∧
      searchLoop heap data LNode.next 1 heap.fuel list.first 0 = some (some i, int32 xs.length) := by
  obtain ⟨ids₁, m, i, n, ids₂, rfl, hcut⟩ := h.cut
  have hlen := hcut.left.length_eq
  have hf := h.segment.length_lt_fuel
  rw [List.length_append] at hf
  have hrun : searchLoop heap data LNode.next 1 heap.fuel list.first 0 =
      some (some i, int32 (0 + 1 * ids₁.length)) :=
    searchLoop_found h.segment.linked.forward h.segment.data hlen hnot ⟨by decide, by decide⟩ (by omega)
  rw [Int.zero_add, Int.one_mul, hlen] at hrun
  exact ⟨ids₁, m, i, n, ids₂, rfl, hcut, hrun⟩

theorem search_not_found (h : Holds heap list ids xs) (hnot : data ∉ xs) :
    ∃ index, searchLoop heap data LNode.next 1 heap.fuel list.first 0 = some (none, index) :=
  searchLoop_not_found h.segment.linked.forward h.segment.data hnot h.segment.length_lt_fuel 0

theorem remove (h : Holds heap list ids xs) (data : Option α) :
    ∃ heap' list', LList.remove heap list data = some (heap', list', decide (data ∈ xs)) ∧
      Becomes heap ids heap' list' (xs.erase data) := by
  by_cases hmem : data ∈ xs
  · obtain ⟨ys, zs, rfl, hnot⟩ := List.eq_append_cons_of_mem hmem
    obtain ⟨ids₁, m, i, n, ids₂, rfl, hcut, hsearch⟩ := h.search_found hnot
    obtain ⟨heap', list', hrun, hres⟩ := h.removeEntry hcut
    refine ⟨heap', list', ?_, ?_⟩
    · simp [LList.remove, hsearch, hrun]
    · rwa [List.erase_append_right _ hnot, List.erase_cons_head]
  · obtain ⟨index, hsearch⟩ := h.search_not_found hmem
    rw [List.erase_of_not_mem hmem]
    exact ⟨heap, list, by simp [LList.remove, hsearch, hmem], h.becomes⟩

theorem contains (h : Holds heap list ids xs) (data : Option α) :
    LList.contains heap list data = some (decide (data ∈ xs)) := by
  by_cases hmem : data ∈ xs
  · obtain ⟨ys, zs, rfl, hnot⟩ := List.eq_append_cons_of_mem hmem
    obtain ⟨ids₁, m, i, n, ids₂, rfl, -, hsearch⟩ := h.search_found hnot
    simp [LList.contains, hsearch]
  · obtain ⟨index, hsearch⟩ := h.search_not_found hmem
    simp [LList.contains, hsearch, hmem]

end Holds

end Search

/-! ### Clear -/

theorem clearLoop_spec (h : Segment heap before head ids xs last none) (hnd : ids.Nodup) (hf : ids.length < fuel) :
    ∃ heap', clearLoop fuel heap head = some heap' ∧ ∀ i, i ∉ ids → heap'.cells i = heap.cells i := by
  induction xs generalizing heap before head ids fuel with
  | nil =>
    obtain ⟨rfl, rfl, -⟩ := h.nil_eq
    obtain _ | fuel := fuel
    · cases hf
    exact ⟨heap, rfl, fun _ _ => rfl⟩
  | cons x xs ih =>
    obtain ⟨i, ids, p, rfl, rfl, hcell, h⟩ := h.cons_inv
    obtain _ | fuel := fuel
    · cases hf
    obtain ⟨hi, hnd⟩ := List.nodup_cons.mp hnd
    obtain ⟨heap', hrun, hkept⟩ := ih (h.erase hi) hnd (Nat.lt_of_succ_lt_succ hf)
    refine ⟨heap', ?_, fun j hj => ?_⟩
    · simp only [clearLoop, hcell, Arena.free_eq hcell, Option.bind_eq_bind, Option.bind_some]
      exact hrun
    · rw [List.mem_cons, not_or] at hj
      rw [hkept j hj.2, Arena.erase_cells_ne hj.1]

theorem Holds.clear (h : Holds heap list ids xs) :
    ∃ heap' list', LList.clear heap list = some (heap', list') ∧ Becomes heap ids heap' list' [] := by
  obtain ⟨heap', hrun, hkept⟩ := clearLoop_spec h.segment h.nodup h.segment.length_lt_fuel
  exact ⟨heap', LList.new, by rw [LList.clear, hrun]; rfl, [], .new, fun i hi _ => hkept i hi, by simp⟩

/-! ### Reverse -/

/-- What `setData` makes of the heap. -/
def putData (heap : LHeap α) (i : Nat) (data : Option α) : LHeap α := heap.modify i fun n => { n with data := data }

theorem setData_eq (hi : heap.cells i ≠ none) (data : Option α) :
    setData heap (some i) data = some (putData heap i data) := by
  obtain ⟨a, ha⟩ := Option.ne_none_iff_exists'.mp hi
  exact Arena.write_eq _ ha

theorem putData_cells_ne (hij : j ≠ i) (data : Option α) : (putData heap i data).cells j = heap.cells j :=
  Arena.modify_cells_ne _ hij

theorem putData_cells_self (hi : heap.cells i = some ⟨x, n, m⟩) (data : Option α) :
    (putData heap i data).cells i = some ⟨data, n, m⟩ := by
  rw [putData, Arena.modify_cells_self, hi]
  rfl

theorem swapData_eq {p q : Option Nat} {y : Option α} (hij : i ≠ j) (hi : heap.cells i = some ⟨x, p, m⟩)
    (hj : heap.cells j = some ⟨y, n, q⟩) :
    ∃ heap', ((setData heap (some i) y).bind fun heap => setData heap (some j) x) = some heap' ∧
      heap'.cells i = some ⟨y, p, m⟩ ∧ heap'.cells j = some ⟨x, n, q⟩ ∧
      ∀ k, k ≠ i → k ≠ j → heap'.cells k = heap.cells k := by
  have hj₁ : (putData heap i y).cells j = some ⟨y, n, q⟩ := (putData_cells_ne hij.symm y).trans hj
  refine ⟨putData (putData heap i y) j x, ?_, (putData_cells_ne hij x).trans (putData_cells_self hi y),
    putData_cells_self hj₁ x, fun k hki hkj => (putData_cells_ne hkj x).trans (putData_cells_ne hki y)⟩
  rw [setData_eq (hi ▸ Option.some_ne_none _), Option.bind_some, setData_eq (hj₁ ▸ Option.some_ne_none _)]

/-- As many nodes lie before `head` as after `tail`. -/
theorem reverseLoop_spec {ids₃ : List Nat} {first tail : Option Nat} (h₁ : Segment heap none first ids₁ xs m head)
    (h₂ : Segment heap m head ids₂ ys tail n) (h₃ : Segment heap tail n ids₃ zs last none)
    (hlen : xs.length = zs.length) (hf : ys.length < fuel) :
    ∃ heap', reverseLoop fuel heap head tail = some heap' ∧
      Segment heap' none first (ids₁ ++ (ids₂ ++ ids₃)) (xs ++ (ys.reverse ++ zs)) last none ∧
      ∀ k, k ∉ ids₂ → heap'.cells k = heap.cells k := by
  have hwhole := h₁.append (h₂.append h₃)
  induction fuel generalizing heap ids₁ ids₂ ids₃ xs ys zs m n head tail with
  | zero => cases hf
  | succ fuel ih =>
    unfold reverseLoop
    obtain _ | ⟨y, ys⟩ := ys
    · -- the ends have crossed
      obtain ⟨rfl, rfl, rfl⟩ := h₂.nil_eq
      refine ⟨heap, ?_, hwhole, fun _ _ => rfl⟩
      split
      · rfl
      · next hne =>
        obtain _ | ⟨z, zs⟩ := zs
        · obtain rfl := List.length_eq_zero_iff.mp hlen
          exact absurd (h₃.nil_eq.2.1.trans (h₁.last_eq_none_iff.mpr rfl).symm) hne
        · obtain ⟨i, ids, p, rfl, rfl, hcell, -⟩ := h₃.cons_inv
          simp [LHeap.deref, hcell]
    · obtain ⟨i, ids, p, rfl, rfl, hi, h₂'⟩ := h₂.cons_inv
      obtain rfl | ⟨ys, y', rfl⟩ := ys.eq_nil_or_concat'
      · -- they have met
        obtain ⟨rfl, -, rfl⟩ := h₂'.nil_eq
        exact ⟨heap, if_pos rfl, hwhole, fun _ _ => rfl⟩
      · obtain ⟨j, ids, q, rfl, rfl, hj, hmid⟩ := h₂'.concat_inv
        obtain ⟨-, hnd, hdisj₁⟩ := List.nodup_append.mp hwhole.nodup
        have hij : i ≠ j := fun hij => (List.nodup_cons.mp hnd).1 (by simp [hij])
        have hmj : m ≠ some j := fun hm => hdisj₁ j (h₁.mem_of_last hm) j (by simp) rfl
        obtain ⟨heap₁, hswap, hi', hj', hkept⟩ := swapData_eq hij hi hj
        have hne : ∀ k, k ∈ ids₁ ∨ k ∈ ids ∨ k ∈ ids₃ → k ≠ i ∧ k ≠ j := by
          intro k hk
          have hall := hwhole.nodup
          simp only [List.nodup_append, List.nodup_cons, List.mem_append, List.mem_cons] at hall
          grind
        have hk₁ := h₁.congr fun k hk => hkept k (hne k (.inl hk)).1 (hne k (.inl hk)).2
        have hk₂ := hmid.congr fun k hk => hkept k (hne k (.inr (.inl hk))).1 (hne k (.inr (.inl hk))).2
        have hk₃ := h₃.congr fun k hk => hkept k (hne k (.inr (.inr hk))).1 (hne k (.inr (.inr hk))).2
        simp only [List.length_cons, List.length_append, List.length_nil] at hf
        have hleft := hk₁.append (.single hi')
        have hright := (Segment.single hj').append hk₃
        obtain ⟨heap', hrun, hres, hkept'⟩ := ih hleft hk₂ hright (by simp [hlen]) (by omega)
          (hleft.append (hk₂.append hright))
        refine ⟨heap', ?_, by simpa using hres, fun k hk => ?_⟩
        · rw [if_neg (by simpa using hij)]
          simp only [LHeap.deref, Option.bind_some, hi, hj, Option.bind_eq_bind, if_neg hmj]
          rw [← Option.bind_assoc, hswap, Option.bind_some]
          exact hrun
        · simp only [List.mem_cons, List.mem_append, List.not_mem_nil, or_false, not_or] at hk
          rw [hkept' k hk.2.1, hkept k hk.1 hk.2.2]

theorem Holds.reverse (h : Holds heap list ids xs) :
    ∃ heap', LList.reverse heap list = some heap' ∧ Becomes heap ids heap' list xs.reverse := by
  have hf := h.segment.length_lt_fuel
  rw [h.segment.length_eq] at hf
  have hnil : Segment heap none list.first [] [] none list.first := .nil none list.first
  have hnil' : Segment heap list.last none [] [] list.last none := .nil list.last none
  obtain ⟨heap', hrun, hres, hkept⟩ := reverseLoop_spec hnil h.segment hnil' rfl hf
  refine ⟨heap', hrun, ids, ⟨by simpa using hres, ?_, ?_⟩, fun i hi _ => hkept i hi, fun i hi => .inl hi⟩
  · rw [List.length_reverse, h.size]
  · rw [List.length_reverse]
    exact h.small

/-! ### Clone -/

theorem extended {first : Option Nat} (h : Segment heap none first ids xs last n) (x : Option α) :
    Segment (putNext (heap.alloc ⟨x, n, last⟩).1 last (some heap.fresh)) none
      (if last = none then some heap.fresh else first) (ids ++ [heap.fresh]) (xs ++ [x]) (some heap.fresh) n ∧
    Frame heap (putNext (heap.alloc ⟨x, n, last⟩).1 last (some heap.fresh)) ids (ids ++ [heap.fresh]) := by
  have hlast : ∀ j, last = some j → j ∈ ids := fun j hj => h.mem_of_last hj
  have hfresh : ∀ j ∈ [heap.fresh], last ≠ some j := fun j hj hp =>
    Nat.ne_of_lt (h.lt_fresh (hlast j hp)) (List.mem_singleton.mp hj)
  have hnew : Segment (heap.alloc ⟨x, n, last⟩).1 last (some heap.fresh) [heap.fresh] [x] (some heap.fresh) n :=
    .single (Arena.alloc_cells_fresh ..)
  refine ⟨((h.alloc ⟨x, n, last⟩).putNext (some heap.fresh)).append (hnew.putNext_of_notMem hfresh (some heap.fresh)),
    fun j hj hcell => ?_, fun j hj => ?_⟩
  · have hjf : j ≠ heap.fresh := fun hjf => hcell (hjf ▸ Arena.cells_fresh heap)
    exact (putNext_cells ..).trans ((if_neg fun hp => hj (hlast j hp)).trans (Arena.alloc_cells_ne _ hjf))
  · rcases List.mem_append.mp hj with hj | hj
    · exact .inl hj
    · exact .inr (List.mem_singleton.mp hj ▸ Arena.cells_fresh heap)

/-- The copy made so far is linked up to its last node, whose own link is not written yet. -/
theorem cloneLoop_spec {copy : LList} {previous : Option Nat} {idsC : List Nat}
    (h : Segment heap before head ids xs last none) (hcopy : Segment heap none copy.first idsC ys previous junk)
    (hdisj : ∀ i ∈ ids, i ∉ idsC) (hf : xs.length < fuel) :
    ∃ heap' first' previous' idsC', cloneLoop junk fuel heap copy previous head =
        some (heap', { copy with first := first' }, previous') ∧
      Segment heap' none first' idsC' (ys ++ xs) previous' junk ∧ Frame heap heap' idsC idsC' := by
  induction xs generalizing heap copy before head ids ys previous idsC fuel with
  | nil =>
    obtain ⟨rfl, rfl, -⟩ := h.nil_eq
    obtain _ | fuel := fuel
    · cases hf
    exact ⟨heap, copy.first, previous, idsC, rfl, by rwa [List.append_nil], .refl heap idsC⟩
  | cons x xs ih =>
    obtain ⟨i, ids, p, rfl, rfl, hcell, h⟩ := h.cons_inv
    obtain _ | fuel := fuel
    · cases hf
    obtain ⟨hcopy', hframe⟩ := extended hcopy x
    have hprevious : ∀ j, previous = some j → j ∈ idsC := fun j hj => hcopy.mem_of_last hj
    have h' := (h.alloc ⟨x, junk, previous⟩).putNext_of_notMem
      (fun j hj hp => hdisj j (List.mem_cons_of_mem i hj) (hprevious j hp)) (some heap.fresh)
    have hdisj' : ∀ j ∈ ids, j ∉ idsC ++ [heap.fresh] := by
      intro j hj hmem
      rcases List.mem_append.mp hmem with hmem | hmem
      · exact hdisj j (List.mem_cons_of_mem i hj) hmem
      · exact Nat.ne_of_lt (h.lt_fresh hj) (List.mem_singleton.mp hmem)
    let copy₁ : LList := { copy with first := if previous = none then some heap.fresh else copy.first }
    obtain ⟨heap', first', previous', idsC', hrun, hres, hframe'⟩ :=
      ih h' (show Segment _ none copy₁.first _ _ _ _ from hcopy') hdisj' (Nat.lt_of_succ_lt_succ hf)
    refine ⟨heap', first', previous', idsC', ?_, by simpa using hres, hframe.trans hframe'⟩
    simp only [cloneLoop, hcell, Arena.alloc_snd, Option.bind_eq_bind, Option.bind_some,
      linkNext_eq copy fun j hj => alloc_cells_ne_none _ (hcopy.cells_ne_none (hprevious j hj))]
    exact hrun

theorem Holds.clone (h : Holds heap list ids xs) (hne : xs ≠ []) (junk : Option Nat) :
    ∃ heap' copy idsC, LList.clone junk heap list = some (heap', list, copy) ∧ Holds heap' copy idsC xs ∧
      Frame heap heap' [] idsC := by
  have hf := h.segment.length_lt_fuel
  rw [h.segment.length_eq] at hf
  let copy : LList := { first := junk, last := junk, size := list.size }
  have hnil : Segment heap none copy.first [] [] none junk := .nil none junk
  obtain ⟨heap', first, previous, idsC, hrun, hcopy, hframe⟩ :=
    cloneLoop_spec h.segment hnil (fun _ _ => List.not_mem_nil) hf
  rw [List.nil_append] at hcopy
  have hprevious : previous ≠ none := fun hnone => hne (hcopy.last_eq_none_iff.mp hnone)
  have hlinked := hcopy.putNext none
  rw [if_neg hprevious] at hlinked
  refine ⟨putNext heap' previous none, { first := first, last := previous, size := list.size }, idsC, ?_,
    ⟨hlinked, h.size, h.small⟩, hframe.trans ⟨fun i hi _ => ?_, fun i hi => .inl hi⟩⟩
  · rw [LList.clone, hrun]
    simp only [Option.bind_eq_bind, Option.bind_some, if_neg hprevious,
      linkNext_eq list fun i hi => hcopy.cells_ne_none (hcopy.mem_of_last hi)]
    rfl
  · rw [putNext_cells, if_neg fun hp => hi (hcopy.mem_of_last hp)]

/-- Of the empty list `llist_clone` never writes the first pointer of the copy. -/
theorem clone_nil (h : Holds heap list ids []) (junk : Option Nat) :
    LList.clone junk heap list = some (heap, list, { first := junk, last := none, size := 0 }) := by
  obtain ⟨first, last, size⟩ := list
  obtain ⟨-, rfl, rfl⟩ := h.segment.nil_eq
  obtain rfl := h.size
  rfl

/-! ### Nodes -/

/-- The node after `k` others: `llist_get_first_node`, and then `k` times `lnode_next`. -/
def nodeAt (heap : LHeap α) (list : LList) (k : Nat) : Option (Option Nat) := forwardLoop heap k list.first

theorem Holds.addAfter (h : Holds heap list (ids₁ ++ i :: ids₂) (xs ++ x :: ys))
    (hcut : Cut heap list ids₁ xs m i x n ids₂ ys) (hsmall : (xs ++ x :: ys).length + 1 < 2 ^ 32) (data : Option α) :
    ∃ heap' list', LNode.addAfter heap list (some i) data = some (heap', list', some heap.fresh) ∧
      Becomes heap (ids₁ ++ i :: ids₂) heap' list' (xs ++ x :: data :: ys) := by
  refine ⟨_, _, ?_, h.insertAfter hcut hsmall data⟩
  simp only [LNode.addAfter, hcut.deref, Option.bind_eq_bind, Option.bind_some]
  split
  · next hn =>
    subst hn
    have hlast : list.last = some i := (hcut.last_eq_iff.mpr rfl).symm
    rw [LList.addLast, addLastEntry_eq h, hlast]
    rfl
  · rw [addBetween_eq (fun j hj => ?_) hcut.cells_right]
    cases hj
    exact hcut.cell ▸ Option.some_ne_none _

theorem Holds.addBefore (h : Holds heap list (ids₁ ++ i :: ids₂) (xs ++ x :: ys))
    (hcut : Cut heap list ids₁ xs m i x n ids₂ ys) (hsmall : (xs ++ x :: ys).length + 1 < 2 ^ 32) (data : Option α) :
    ∃ heap' list', LNode.addBefore heap list (some i) data = some (heap', list', some heap.fresh) ∧
      Becomes heap (ids₁ ++ i :: ids₂) heap' list' (xs ++ data :: x :: ys) := by
  refine ⟨_, _, ?_, h.insertBefore hcut hsmall data⟩
  simp only [LNode.addBefore, hcut.deref, Option.bind_eq_bind, Option.bind_some]
  split
  · next hm =>
    subst hm
    have hfirst : list.first = some i := (hcut.first_eq_iff.mpr rfl).symm
    rw [addFirst_eq h, hfirst]
    rfl
  · rw [addBetween_eq hcut.cells_left fun j hj => ?_]
    cases hj
    exact hcut.cell ▸ Option.some_ne_none _

end Renameutils.LList
