import Renameutils.LListRuns

/-!
# Access by index

`llist_get`, `llist_set`, `llist_to_array`, `llist_index_of` and `llist_last_index_of` count the elements in the same
way (`indexLaws_iff`), except that `llist_set` stores the data that were there before, and that an index from 2³¹ on
is not an `int32_t`.
-/

namespace Renameutils.LList

open LHeap

variable {α : Type} {heap : LHeap α} {list : LList} {k n fuel : Nat} {ids : List Nat}
variable {xs ys zs : List (Option α)} {data : Option α} {before head last : Option Nat}

/-- `index` is the least of the `n` indices at which the data are, or -1. -/
def IsLeastIndex (found : Nat → Prop) (n : Nat) (index : Int) : Prop :=
  (∃ j, j < n ∧ found j ∧ index = j ∧ ∀ k, k < j → ¬ found k) ∨ index = -1 ∧ ∀ j, j < n → ¬ found j

/-- `index` is the greatest of the `n` indices at which the data are, or -1. -/
def IsGreatestIndex (found : Nat → Prop) (n : Nat) (index : Int) : Prop :=
  (∃ j, j < n ∧ found j ∧ index = j ∧ ∀ k, j < k → k < n → ¬ found k) ∨ index = -1 ∧ ∀ j, j < n → ¬ found j

/-- What `llist_get` and the other functions do on a list that holds `xs`: `d` is stored at `i`, and `e` is looked
for. -/
structure IndexLaws [DecidableEq α] (heap : LHeap α) (list : LList) (xs : List (Option α)) (i : Nat) (d e : Option α) :
    Prop where
  get : ∀ j, LList.get heap list j = some xs[j]?.join
  set : ∀ x, xs[i]? = some x → ∃ heap', LList.set heap list i d = some (heap', x) ∧
    LList.get heap' list i = some d ∧ ∀ j, j ≠ i → LList.get heap' list j = LList.get heap list j
  toArray : ∃ array, LList.toArray heap list = some array ∧ array.length = xs.length ∧
    ∀ j, j < xs.length → array[j]? = some (LList.get heap list j)
  indexOf : ∃ index, LList.indexOf heap list e = some index ∧
    IsLeastIndex (fun j => LList.get heap list j = some e) xs.length index
  lastIndexOf : ∃ index, LList.lastIndexOf heap list e = some index ∧
    IsGreatestIndex (fun j => LList.get heap list j = some e) xs.length index

section Arrays

theorem arrayLoop_spec (h : Segment heap before head ids xs last none) (pre post : Block (Option α))
    (hsmall : pre.length + xs.length < 2 ^ 32) (hf : xs.length < fuel) :
    arrayLoop heap fuel (pre ++ (Block.alloc xs.length ++ post)) pre.length head =
      some (pre ++ (xs.map some ++ post), pre.length + xs.length) := by
  induction xs generalizing before head ids pre fuel with
  | nil =>
    obtain ⟨rfl, rfl, -⟩ := h.nil_eq
    obtain _ | fuel := fuel
    · cases hf
    rfl
  | cons x xs ih =>
    obtain ⟨i, ids, p, rfl, rfl, hcell, h⟩ := h.cons_inv
    obtain _ | fuel := fuel
    · cases hf
    rw [List.length_cons] at hsmall hf ⊢
    have hindex : uint32 ((pre.length : Int) + 1) = (pre ++ [some x]).length :=
      uint32_eq (by simp) (by simp only [List.length_append, List.length_singleton]; omega)
    have hstore : Block.store (pre ++ (Block.alloc (xs.length + 1) ++ post)) pre.length [some x] =
        some (pre ++ some x :: (Block.alloc xs.length ++ post)) := Block.store_one rfl
    have hrun := ih h (pre ++ [some x]) (by simp only [List.length_append, List.length_singleton]; omega)
      (Nat.lt_of_succ_lt_succ hf)
    simp only [arrayLoop, hcell, Option.bind_eq_bind, Option.bind_some, hstore, hindex]
    simpa [Nat.add_assoc, Nat.add_comm 1] using hrun

namespace Holds

theorem toArray (h : Holds heap list ids xs) : LList.toArray heap list = some (xs.map some) := by
  have hf := h.segment.length_lt_fuel
  rw [h.segment.length_eq] at hf
  have hrun := arrayLoop_spec h.segment [] [] (by simpa using h.small) hf
  simp only [List.append_nil, List.nil_append, List.length_nil] at hrun
  rw [LList.toArray, h.size, hrun]
  rfl

theorem toNullTerminatedArray (h : Holds heap list ids xs) (hsmall : xs.length + 1 < 2 ^ 32) :
    LList.toNullTerminatedArray heap list = some (xs.map some ++ [some none]) := by
  have hf := h.segment.length_lt_fuel
  rw [h.segment.length_eq] at hf
  have hrun := arrayLoop_spec h.segment [] [none] (by simpa using h.small) hf
  simp only [List.nil_append, List.length_nil, Nat.zero_add] at hrun
  have halloc : (Block.alloc (xs.length + 1) : Block (Option α)) = Block.alloc xs.length ++ [none] :=
    List.replicate_succ'
  have hsize : uint32 ((list.size : Int) + 1) = xs.length + 1 := by
    rw [h.size]
    exact uint32_eq rfl hsmall
  rw [LList.toNullTerminatedArray, hsize, halloc, hrun]
  exact Block.store_one (by rw [List.length_map])

theorem set_eq (h : Holds heap list ids xs) (k : Nat) (d : Option α) :
    LList.set heap list k d = some (heap, xs[k]?.join) := by
  unfold LList.set
  rw [h.size]
  split
  · next hk =>
    rw [List.getElem?_eq_none hk]
    rfl
  · next hk =>
    obtain ⟨x, ys, zs, rfl, rfl⟩ := eq_append_cons (Nat.lt_of_not_le hk)
    obtain ⟨ids₁, m, i, n, ids₂, rfl, hcut, hget⟩ := h.getEntry
    have hsame : putData heap i x = heap := by
      refine Arena.ext (funext fun j => ?_) rfl
      by_cases hji : j = i
      · subst hji
        rw [putData_cells_self hcut.cell, hcut.cell]
      · exact putData_cells_ne hji x
    rw [hget]
    simp only [Option.bind_eq_bind, Option.bind_some, hcut.deref, setData_eq (hcut.cell ▸ Option.some_ne_none _), hsame]
    simp

end Holds

end Arrays

theorem index_iff {found only : Nat → Prop} (hk : k < n) (hn : n ≤ 2 ^ 32) (hfound : found k) (honly : only k) :
    ((∃ j, j < n ∧ found j ∧ int32 k = j ∧ only j) ∨ int32 k = -1 ∧ ∀ j, j < n → ¬ found j) ↔ k < 2 ^ 31 := by
  constructor
  · rintro (⟨j, -, -, hindex, -⟩ | ⟨-, hnone⟩)
    · exact (int32_eq_natCast (Nat.lt_of_lt_of_le hk hn) hindex).2
    · exact absurd hfound (hnone k hk)
  · exact fun hlt => .inl ⟨k, hk, hfound, int32_eq (by omega) (by omega), honly⟩

theorem isLeastIndex_iff {found : Nat → Prop} (hk : k < n) (hn : n ≤ 2 ^ 32) (hfound : found k)
    (hleast : ∀ j, j < k → ¬ found j) : IsLeastIndex found n (int32 k) ↔ k < 2 ^ 31 :=
  index_iff hk hn hfound hleast

theorem isGreatestIndex_iff {found : Nat → Prop} (hk : k < n) (hn : n ≤ 2 ^ 32) (hfound : found k)
    (hgreatest : ∀ j, k < j → j < n → ¬ found j) : IsGreatestIndex found n (int32 k) ↔ k < 2 ^ 31 :=
  index_iff hk hn hfound hgreatest

theorem Holds.get_eq_iff (h : Holds heap list ids xs) {j : Nat} (hj : j < xs.length) :
    LList.get heap list j = some data ↔ xs[j]? = some data := by
  rw [h.get, List.getElem?_eq_getElem hj]
  rfl

theorem exists_last (h : data ∈ xs) : ∃ ys zs, xs = ys ++ data :: zs ∧ data ∉ zs := by
  obtain ⟨zs, ys, hrev, hnot⟩ := List.eq_append_cons_of_mem (List.mem_reverse.mpr h)
  refine ⟨ys.reverse, zs.reverse, ?_, by simpa using hnot⟩
  simpa using congrArg List.reverse hrev

section Search

variable [DecidableEq α]

namespace Holds

theorem indexOf_of_mem (h : Holds heap list ids (ys ++ data :: zs)) (hnot : data ∉ ys) :
    LList.indexOf heap list data = some (int32 ys.length) := by
  obtain ⟨ids₁, m, i, n, ids₂, rfl, -, hsearch⟩ := h.search_found hnot
  simp [LList.indexOf, hsearch]

theorem indexOf_of_notMem (h : Holds heap list ids xs) (hnot : data ∉ xs) :
    LList.indexOf heap list data = some (-1) := by
  obtain ⟨index, hsearch⟩ := h.search_not_found hnot
  simp [LList.indexOf, hsearch]

theorem lastIndexOf_of_mem (h : Holds heap list ids (ys ++ data :: zs)) (hnot : data ∉ zs) :
    LList.lastIndexOf heap list data = some (int32 ys.length) := by
  obtain ⟨ids₁, m, i, n, ids₂, rfl, hcut⟩ := h.cut
  have hlen := hcut.right.length_eq
  have hf := h.segment.length_lt_fuel
  have hlinked := h.segment.linked.backward
  have hdata := congrArg List.reverse h.segment.data
  rw [← List.map_reverse, ← List.map_reverse] at hdata
  simp only [List.reverse_append, List.reverse_cons, List.append_assoc, List.singleton_append] at hlinked hdata
  rw [List.length_append, List.length_cons] at hf
  have hrun : searchLoop heap data LNode.previous (-1) heap.fuel list.last (int32 (list.size - 1)) =
      some (some i, int32 (int32 (list.size - 1) + -1 * (ids₂.reverse.length : Nat))) :=
    searchLoop_found hlinked hdata (by simpa using hlen) (by simpa using hnot) (isInt32_int32 _)
      (by rw [List.length_reverse]; omega)
  have hindex : (list.size : Int) - 1 + -1 * (ids₂.reverse.length : Nat) = ys.length := by
    rw [h.size, List.length_reverse, hlen, List.length_append, List.length_cons]
    omega
  rw [int32_add, hindex] at hrun
  simp [LList.lastIndexOf, hrun]

theorem lastIndexOf_of_notMem (h : Holds heap list ids xs) (hnot : data ∉ xs) :
    LList.lastIndexOf heap list data = some (-1) := by
  have hdata := congrArg List.reverse h.segment.data
  rw [← List.map_reverse, ← List.map_reverse] at hdata
  have hsearch : ∃ index, searchLoop heap data LNode.previous (-1) heap.fuel list.last (int32 (list.size - 1)) =
      some (none, index) :=
    searchLoop_not_found h.segment.linked.backward hdata (by simpa using hnot)
      (by simpa using h.segment.length_lt_fuel) _
  obtain ⟨index, hrun⟩ := hsearch
  simp [LList.lastIndexOf, hrun]

end Holds

theorem Holds.indexOf_iff (h : Holds heap list ids xs) (e : Option α) :
    (∃ index, LList.indexOf heap list e = some index ∧
      IsLeastIndex (fun j => LList.get heap list j = some e) xs.length index) ↔
    ∀ j, xs[j]? = some e → (∀ k, k < j → xs[k]? ≠ some e) → j < 2 ^ 31 := by
  by_cases hmem : e ∈ xs
  · obtain ⟨ys, zs, rfl, hnot⟩ := List.eq_append_cons_of_mem hmem
    have hlen : ys.length < (ys ++ e :: zs).length := by simp
    have hnone : ∀ j, j < ys.length → (ys ++ e :: zs)[j]? ≠ some e := fun j hj hjs =>
      hnot (List.mem_of_getElem? ((List.getElem?_append_left hj).symm.trans hjs))
    have hleast := isLeastIndex_iff hlen (Nat.le_of_lt h.small) ((h.get_eq_iff hlen).mpr (by simp))
      fun j hj hfound => hnone j hj ((h.get_eq_iff (hj.trans hlen)).mp hfound)
    rw [h.indexOf_of_mem hnot]
    constructor
    · rintro ⟨index, hrun, hindex⟩ j hj hfirst
      obtain rfl := Option.some.inj hrun
      have hle : j ≤ ys.length := by
        by_contra hlt
        exact hfirst ys.length (by omega) (by simp)
      have := hleast.mp hindex
      omega
    · exact fun hall => ⟨_, rfl, hleast.mpr (hall ys.length (by simp) hnone)⟩
  · rw [h.indexOf_of_notMem hmem]
    exact iff_of_true ⟨-1, rfl, .inr ⟨rfl, fun j hj hfound =>
      hmem (List.mem_of_getElem? ((h.get_eq_iff hj).mp hfound))⟩⟩ fun j hj => absurd (List.mem_of_getElem? hj) hmem

theorem Holds.lastIndexOf_iff (h : Holds heap list ids xs) (e : Option α) :
    (∃ index, LList.lastIndexOf heap list e = some index ∧
      IsGreatestIndex (fun j => LList.get heap list j = some e) xs.length index) ↔
    ∀ j, xs[j]? = some e → j < 2 ^ 31 := by
  by_cases hmem : e ∈ xs
  · obtain ⟨ys, zs, rfl, hnot⟩ := exists_last hmem
    have hlen : ys.length < (ys ++ e :: zs).length := by simp
    have hnone : ∀ j, ys.length < j → (ys ++ e :: zs)[j]? ≠ some e := by
      intro j hj hjs
      rw [List.getElem?_append_right (Nat.le_of_lt hj), List.getElem?_cons, if_neg (by omega)] at hjs
      exact hnot (List.mem_of_getElem? hjs)
    have hgreatest := isGreatestIndex_iff hlen (Nat.le_of_lt h.small) ((h.get_eq_iff hlen).mpr (by simp))
      fun j hj hjlen hfound => hnone j hj ((h.get_eq_iff hjlen).mp hfound)
    rw [h.lastIndexOf_of_mem hnot]
    constructor
    · rintro ⟨index, hrun, hindex⟩ j hj
      obtain rfl := Option.some.inj hrun
      have hle : j ≤ ys.length := by
        by_contra hlt
        exact hnone j (by omega) hj
      have := hgreatest.mp hindex
      omega
    · exact fun hall => ⟨_, rfl, hgreatest.mpr (hall ys.length (by simp))⟩
  · rw [h.lastIndexOf_of_notMem hmem]
    exact iff_of_true ⟨-1, rfl, .inr ⟨rfl, fun j hj hfound =>
      hmem (List.mem_of_getElem? ((h.get_eq_iff hj).mp hfound))⟩⟩ fun j hj => absurd (List.mem_of_getElem? hj) hmem

/-- The laws hold exactly when `llist_set` is to store what is there already and nothing is found at an index from
2³¹ on. -/
theorem indexLaws_iff (h : WellFormed heap list ids xs) (i : Nat) (d e : Option α) :
    IndexLaws heap list xs i d e ↔ (∀ x, xs[i]? = some x → x = d) ∧ ∀ j, xs[j]? = some e → j < 2 ^ 31 := by
  have h := h.holds
  constructor
  · intro laws
    refine ⟨fun x hx => ?_, (h.lastIndexOf_iff e).mp laws.lastIndexOf⟩
    obtain ⟨heap', hset, hget, -⟩ := laws.set x hx
    rw [h.set_eq] at hset
    cases hset
    rw [h.get, hx] at hget
    exact Option.some.inj hget
  · rintro ⟨hd, he⟩
    refine ⟨h.get, fun x hx => ⟨heap, ?_, ?_, fun _ _ => rfl⟩, ⟨_, h.toArray, List.length_map _, fun j hj => ?_⟩,
      (h.indexOf_iff e).mpr fun j hj _ => he j hj, (h.lastIndexOf_iff e).mpr he⟩
    · rw [h.set_eq, hx]
      rfl
    · obtain rfl := hd x hx
      rw [h.get, hx]
      rfl
    · rw [h.get, List.getElem?_map, List.getElem?_eq_getElem hj]
      rfl

theorem indexLaws_iff_pair :
    WellFormed pairHeap pairList [0, 1] [some 1, some 2] ∧
    (IndexLaws pairHeap pairList [some 1, some 2] 1 (some 2) (some 1) ↔
      (∀ x, ([some 1, some 2] : List (Option Nat))[1]? = some x → x = some 2) ∧
        ∀ j, ([some 1, some 2] : List (Option Nat))[j]? = some (some 1) → j < 2 ^ 31) :=
  ⟨pairList_wellFormed, indexLaws_iff pairList_wellFormed 1 (some 2) (some 1)⟩

/-- `llist_set` of 3 at the index 0 leaves 1 there. -/
theorem not_indexLaws : ¬ IndexLaws pairHeap pairList [some 1, some 2] 0 (some 3) (some 2) := by
  intro laws
  obtain ⟨heap', hset, hget, -⟩ := laws.set (some 1) rfl
  cases hset
  exact absurd hget (by decide)

end Search

end Renameutils.LList
