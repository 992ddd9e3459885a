import Renameutils.LListLoops
import Renameutils.Lib.Runs

/-!
# Runs over linked lists

Any calls on any number of lists in one memory leave lists that are linked in both directions and hold what the
calls make of sequences (`ops_represented`). Two things must not happen: `llist_clone` of an empty list leaves the
first pointer of the copy as `xmalloc` gave it (`clone_empty_not_represented`), and `size` is a `uint32_t`.
-/

namespace Renameutils.LList

open LHeap

variable {α : Type}

/-- What a reader of the list relies on. -/
structure WellFormed (heap : LHeap α) (list : LList) (ids : List Nat) (xs : List (Option α)) : Prop where
  /-- From `first` one meets exactly these nodes. -/
  next : Linked (nextAt heap) list.first ids none
  size : list.size = ids.length
  small : list.size < 2 ^ 32
  last : list.last = ids.getLast?
  /-- The mirror image. -/
  previous : Linked (previousAt heap) list.last ids.reverse none
  first_empty : list.first = none ↔ list.size = 0
  last_empty : list.last = none ↔ list.size = 0
  data : ids.map (dataAt heap) = xs.map some

/-- Two nodes. -/
def pairHeap : LHeap Nat := ((Arena.empty.alloc ⟨some 1, some 1, none⟩).1.alloc ⟨some 2, none, some 0⟩).1

/-- The list of these. -/
def pairList : LList := { first := some 0, last := some 1, size := 2 }

theorem pairList_wellFormed : WellFormed pairHeap pairList [0, 1] [some 1, some 2] where
  next := .cons rfl (.cons rfl (.nil none))
  size := rfl
  small := by decide
  last := rfl
  previous := .cons rfl (.cons rfl (.nil none))
  first_empty := by decide
  last_empty := by decide
  data := rfl

/-- A call on one list. A node is given by its place. -/
inductive Change (α : Type) where
  | addFirst (data : Option α)
  | addLast (data : Option α)
  | addAt (index : Nat) (data : Option α)
  | remove (data : Option α)
  | removeFirst
  | removeLast
  | removeAt (index : Nat)
  | clear
  | reverse
  | addAfter (k : Nat) (data : Option α)
  | addBefore (k : Nat) (data : Option α)
  | removeNode (k : Nat)

/-- A call on the lists in memory, by their numbers. -/
inductive Op (α : Type) where
  | new
  | clone (l : Nat) (junk : Option Nat)
  | addAll (l l2 : Nat)
  | change (l : Nat) (call : Change α)

namespace Change

def run [DecidableEq α] (heap : LHeap α) (list : LList) : Change α → Option (LHeap α × LList)
  | addFirst data => LList.addFirst heap list data
  | addLast data => LList.addLast heap list data
  | addAt index data => LList.addAt heap list index data
  | remove data => do
    let (heap, list, _) ← LList.remove heap list data
    some (heap, list)
  | removeFirst => do
    let (heap, list, _) ← LList.removeFirst heap list
    some (heap, list)
  | removeLast => do
    let (heap, list, _) ← LList.removeLast heap list
    some (heap, list)
  | removeAt index => do
    let (heap, list, _) ← LList.removeAt heap list index
    some (heap, list)
  | clear => LList.clear heap list
  | reverse => do some (← LList.reverse heap list, list)
  | addAfter k data => do
    let (heap, list, _) ← LNode.addAfter heap list (← nodeAt heap list k) data
    some (heap, list)
  | addBefore k data => do
    let (heap, list, _) ← LNode.addBefore heap list (← nodeAt heap list k) data
    some (heap, list)
  | removeNode k => do LNode.remove heap list (← nodeAt heap list k)

/-- What the call makes of a sequence. There must be a node at the place given. -/
def apply [DecidableEq α] (xs : List (Option α)) : Change α → Option (List (Option α))
  | addFirst data => some (data :: xs)
  | addLast data => some (xs ++ [data])
  | addAt index data => some (xs.insertIdx index data)
  | remove data => some (xs.erase data)
  | removeFirst => some xs.tail
  | removeLast => some xs.dropLast
  | removeAt index => some (xs.eraseIdx index)
  | clear => some []
  | reverse => some xs.reverse
  | addAfter k data => if k < xs.length then some (xs.insertIdx (k + 1) data) else none
  | addBefore k data => if k < xs.length then some (xs.insertIdx k data) else none
  | removeNode k => if k < xs.length then some (xs.eraseIdx k) else none

/-- The number of elements stays one that `size` can hold. -/
def Fits (xs : List (Option α)) : Change α → Prop
  | addFirst _ | addLast _ | addAfter _ _ | addBefore _ _ => xs.length + 1 < 2 ^ 32
  | addAt index _ => index ≤ xs.length → xs.length + 1 < 2 ^ 32
  | _ => True

end Change

/-- The memory and the lists in it. -/
structure World (α : Type) where
  heap : LHeap α
  lists : List LList

namespace Op

def run [DecidableEq α] (world : World α) : Op α → Option (World α)
  | new => some { world with lists := world.lists ++ [LList.new] }
  | clone l junk => do
    let (heap, list, copy) ← LList.clone junk world.heap (← world.lists[l]?)
    some { heap := heap, lists := world.lists.set l list ++ [copy] }
  | addAll l l2 =>
    if l = l2 then none
    else do
      let (heap, list) ← LList.addAll world.heap (← world.lists[l]?) (← world.lists[l2]?)
      some { heap := heap, lists := world.lists.set l list }
  | change l call => do
    let (heap, list) ← call.run world.heap (← world.lists[l]?)
    some { heap := heap, lists := world.lists.set l list }

/-- What the call makes of sequences. -/
def apply [DecidableEq α] (seqs : List (List (Option α))) : Op α → Option (List (List (Option α)))
  | new => some (seqs ++ [[]])
  | clone l _ => do some (seqs ++ [← seqs[l]?])
  | addAll l l2 =>
    if l = l2 then none else do some (seqs.set l ((← seqs[l]?) ++ (← seqs[l2]?)))
  | change l call => do some (seqs.set l (← call.apply (← seqs[l]?)))

/-- A list to clone is not empty, or the memory for the copy happens to hold `NULL`, and every list stays below 2³²
elements. -/
def Fits (seqs : List (List (Option α))) : Op α → Prop
  | new => True
  | clone l junk => ∀ xs, seqs[l]? = some xs → xs = [] → junk = none
  | addAll l l2 => ∀ xs ys, seqs[l]? = some xs → seqs[l2]? = some ys → (xs ++ ys).length < 2 ^ 32
  | change l call => ∀ xs, seqs[l]? = some xs → call.Fits xs

end Op

namespace World

def empty : World α := { heap := .empty, lists := [] }

/-- Every list is well-formed and holds its sequence. -/
def Represents (world : World α) (seqs : List (List (Option α))) : Prop :=
  world.lists.length = seqs.length ∧
  ∀ (l : Nat) (list : LList) (xs : List (Option α)), world.lists[l]? = some list → seqs[l]? = some xs →
    ∃ ids, WellFormed world.heap list ids xs

end World

theorem Holds.wellFormed {heap : LHeap α} {list : LList} {ids : List Nat} {xs : List (Option α)}
    (h : Holds heap list ids xs) : WellFormed heap list ids xs where
  next := h.segment.linked.forward
  size := by rw [h.size, h.segment.length_eq]
  small := by rw [h.size]; exact h.small
  last := h.segment.linked.getLast?_eq.symm
  previous := h.segment.linked.backward
  first_empty := by rw [h.size_eq_zero_iff, h.segment.head_eq_none_iff]
  last_empty := by rw [h.size_eq_zero_iff, h.segment.last_eq_none_iff]
  data := h.segment.data

theorem WellFormed.holds {heap : LHeap α} {list : LList} {ids : List Nat} {xs : List (Option α)}
    (h : WellFormed heap list ids xs) : Holds heap list ids xs := by
  have hlen : ids.length = xs.length := by simpa using congrArg List.length h.data
  exact ⟨⟨⟨h.next, h.previous⟩, h.data⟩, by rw [h.size, hlen], by rw [← hlen, ← h.size]; exact h.small⟩

/-- The invariant of a run: the nodes of the list `l` are `ids l`, and no node is in two lists. -/
structure Inv (world : World α) (seqs : List (List (Option α))) (ids : Nat → List Nat) : Prop where
  length : world.lists.length = seqs.length
  holds : ∀ l list xs, world.lists[l]? = some list → seqs[l]? = some xs → Holds world.heap list (ids l) xs
  disjoint : ∀ l l', l ≠ l' → l < seqs.length → l' < seqs.length → ∀ i ∈ ids l, i ∉ ids l'

namespace Inv

variable {world : World α} {seqs : List (List (Option α))} {ids : Nat → List Nat} {heap' : LHeap α}
variable {list list' copy : LList} {l l2 : Nat} {xs ys : List (Option α)} {idsC : List Nat}

theorem represents (h : Inv world seqs ids) : world.Represents seqs :=
  ⟨h.length, fun l list xs hlist hxs => ⟨ids l, (h.holds l list xs hlist hxs).wellFormed⟩⟩

theorem exists_list (h : Inv world seqs ids) (hxs : seqs[l]? = some xs) :
    ∃ list, world.lists[l]? = some list ∧ Holds world.heap list (ids l) xs := by
  obtain ⟨hl, -⟩ := List.getElem?_eq_some_iff.mp hxs
  have hlist := List.getElem?_eq_getElem (h.length ▸ hl)
  exact ⟨_, hlist, h.holds l _ xs hlist hxs⟩

theorem cells_ne_none (h : Inv world seqs ids) (hl : l < seqs.length) {i : Nat} (hi : i ∈ ids l) :
    world.heap.cells i ≠ none := by
  obtain ⟨list, -, hholds⟩ := h.exists_list (List.getElem?_eq_getElem hl)
  exact hholds.segment.cells_ne_none hi

theorem disjoint_update {ids : Nat → List Nat} {idsK : List Nat} {count k : Nat}
    (h : ∀ l l', l ≠ l' → l ≠ k → l' ≠ k → l < count → l' < count → ∀ i ∈ ids l, i ∉ ids l')
    (hnew : ∀ l, l ≠ k → l < count → ∀ i ∈ idsK, i ∉ ids l) (l l' : Nat) (hne : l ≠ l') (hl : l < count)
    (hl' : l' < count) : ∀ i ∈ Function.update ids k idsK l, i ∉ Function.update ids k idsK l' := by
  by_cases hk : l = k
  · subst hk
    rw [Function.update_self, Function.update_of_ne hne.symm]
    exact hnew l' hne.symm hl'
  · rw [Function.update_of_ne hk]
    by_cases hk' : l' = k
    · subst hk'
      rw [Function.update_self]
      exact fun i hi hi' => hnew l hk hl i hi' hi
    · rw [Function.update_of_ne hk']
      exact h l l' hne hk hk' hl hl'

/-- A call on one list keeps the others. -/
theorem update (h : Inv world seqs ids) (hxs : seqs[l]? = some xs) (hb : Becomes world.heap (ids l) heap' list' ys) :
    ∃ ids', Inv { heap := heap', lists := world.lists.set l list' } (seqs.set l ys) ids' := by
  obtain ⟨idsL, hholds, hframe⟩ := hb
  obtain ⟨hl, -⟩ := List.getElem?_eq_some_iff.mp hxs
  have hnew : ∀ l', l' ≠ l → l' < seqs.length → ∀ i ∈ idsL, i ∉ ids l' := by
    intro l' hne hl' i hi hi'
    rcases hframe.new i hi with hi | hnone
    · exact h.disjoint l l' hne.symm hl hl' i hi hi'
    · exact h.cells_ne_none hl' hi' hnone
  refine ⟨Function.update ids l idsL, by simp [h.length], fun l' list₁ xs₁ hlist hxs₁ => ?_, ?_⟩
  · by_cases hll : l' = l
    · subst hll
      rw [List.getElem?_set_self (h.length ▸ hl)] at hlist
      rw [List.getElem?_set_self hl] at hxs₁
      cases hlist
      cases hxs₁
      rwa [Function.update_self]
    · rw [List.getElem?_set_ne (Ne.symm hll)] at hlist hxs₁
      rw [Function.update_of_ne hll]
      have hl' := (List.getElem?_eq_some_iff.mp hxs₁).1
      exact (h.holds l' list₁ xs₁ hlist hxs₁).of_frame hframe (h.disjoint l' l hll hl' hl)
  · rw [List.length_set]
    exact disjoint_update (fun l₁ l₂ hne _ _ => h.disjoint l₁ l₂ hne) hnew

theorem push (h : Inv world seqs ids) (hholds : Holds heap' copy idsC xs) (hframe : Frame world.heap heap' [] idsC) :
    ∃ ids', Inv { heap := heap', lists := world.lists ++ [copy] } (seqs ++ [xs]) ids' := by
  have hnew : ∀ l, l < seqs.length → ∀ i ∈ idsC, i ∉ ids l := fun l hl i hi hi' =>
    (hframe.new i hi).elim List.not_mem_nil (h.cells_ne_none hl hi')
  refine ⟨Function.update ids seqs.length idsC, by simp [h.length], fun l list₁ xs₁ hlist hxs₁ => ?_, ?_⟩
  · by_cases hl : l < seqs.length
    · rw [List.getElem?_append_left hl] at hxs₁
      rw [List.getElem?_append_left (h.length ▸ hl)] at hlist
      rw [Function.update_of_ne (Nat.ne_of_lt hl)]
      exact (h.holds l list₁ xs₁ hlist hxs₁).of_frame hframe fun _ _ => List.not_mem_nil
    · have hlt := (List.getElem?_eq_some_iff.mp hxs₁).1
      rw [List.length_append, List.length_singleton] at hlt
      obtain rfl : l = seqs.length := by omega
      rw [List.getElem?_concat_length] at hxs₁
      rw [← h.length, List.getElem?_concat_length] at hlist
      cases hlist
      cases hxs₁
      rwa [Function.update_self]
  · rw [List.length_append, List.length_singleton]
    exact disjoint_update (fun l₁ l₂ hne hk hk' hl hl' => h.disjoint l₁ l₂ hne (by omega) (by omega))
      fun l hk hl => hnew l (by omega)

end Inv

theorem Holds.nodeAt {heap : LHeap α} {list : LList} {ids : List Nat} {xs : List (Option α)} {k : Nat}
    (h : Holds heap list ids xs) (hk : k < xs.length) :
    ∃ x ys zs ids₁ m i n ids₂, xs = ys ++ x :: zs ∧ ys.length = k ∧ ids = ids₁ ++ i :: ids₂ ∧
      Cut heap list ids₁ ys m i x n ids₂ zs ∧ LList.nodeAt heap list k = some (some i) := by
  obtain ⟨x, ys, zs, rfl, rfl⟩ := eq_append_cons hk
  obtain ⟨ids₁, m, i, n, ids₂, rfl, hcut⟩ := h.cut
  exact ⟨x, ys, zs, ids₁, m, i, n, ids₂, rfl, rfl, rfl, hcut, hcut.forwardLoop⟩

section Steps

variable [DecidableEq α] {heap : LHeap α} {list : LList} {ids : List Nat} {xs ys : List (Option α)}

theorem Change.run_becomes (call : Change α) (h : Holds heap list ids xs) (hfits : call.Fits xs)
    (happly : call.apply xs = some ys) :
    ∃ heap' list', call.run heap list = some (heap', list') ∧ Becomes heap ids heap' list' ys := by
  cases call with
  | addFirst data => cases happly; exact h.addFirst hfits data
  | addLast data => cases happly; exact h.addLast hfits data
  | addAt index data => cases happly; exact h.addAt hfits data
  | remove data =>
    cases happly
    obtain ⟨heap', list', hrun, hres⟩ := h.remove data
    exact ⟨heap', list', by rw [Change.run, hrun]; rfl, hres⟩
  | removeFirst =>
    cases happly
    obtain ⟨heap', list', hrun, hres⟩ := h.removeFirst
    exact ⟨heap', list', by rw [Change.run, hrun]; rfl, hres⟩
  | removeLast =>
    cases happly
    obtain ⟨heap', list', hrun, hres⟩ := h.removeLast
    exact ⟨heap', list', by rw [Change.run, hrun]; rfl, hres⟩
  | removeAt index =>
    cases happly
    obtain ⟨heap', list', hrun, hres⟩ := h.removeAt index
    exact ⟨heap', list', by rw [Change.run, hrun]; rfl, hres⟩
  | clear => cases happly; exact h.clear
  | reverse =>
    cases happly
    obtain ⟨heap', hrun, hres⟩ := h.reverse
    exact ⟨heap', list, by rw [Change.run, hrun]; rfl, hres⟩
  | addAfter k data =>
    obtain ⟨hk, heq⟩ := Option.ite_none_right_eq_some.mp happly
    cases heq
    obtain ⟨x, ys, zs, ids₁, m, i, n, ids₂, rfl, rfl, rfl, hcut, hnode⟩ := h.nodeAt hk
    obtain ⟨heap', list', hrun, hres⟩ := h.addAfter hcut hfits data
    refine ⟨heap', list', by simp only [Change.run, hnode, Option.bind_eq_bind, Option.bind_some, hrun], ?_⟩
    have hins := insertIdx_append (ys ++ [x]) zs data
    rw [List.length_append, List.length_singleton, List.append_assoc, List.append_assoc] at hins
    rwa [show ys ++ x :: zs = ys ++ ([x] ++ zs) from rfl, hins]
  | addBefore k data =>
    obtain ⟨hk, heq⟩ := Option.ite_none_right_eq_some.mp happly
    cases heq
    obtain ⟨x, ys, zs, ids₁, m, i, n, ids₂, rfl, rfl, rfl, hcut, hnode⟩ := h.nodeAt hk
    obtain ⟨heap', list', hrun, hres⟩ := h.addBefore hcut hfits data
    refine ⟨heap', list', by simp only [Change.run, hnode, Option.bind_eq_bind, Option.bind_some, hrun], ?_⟩
    rwa [insertIdx_append]
  | removeNode k =>
    obtain ⟨hk, heq⟩ := Option.ite_none_right_eq_some.mp happly
    cases heq
    obtain ⟨x, ys, zs, ids₁, m, i, n, ids₂, rfl, rfl, rfl, hcut, hnode⟩ := h.nodeAt hk
    obtain ⟨heap', list', hrun, hres⟩ := h.removeEntry hcut
    refine ⟨heap', list', ?_, by rwa [eraseIdx_append]⟩
    simp only [Change.run, hnode, Option.bind_eq_bind, Option.bind_some, LNode.remove, hrun]

theorem Op.run_inv {world : World α} {seqs seqs' : List (List (Option α))} {ids : Nat → List Nat} (op : Op α)
    (h : Inv world seqs ids) (hfits : op.Fits seqs) (happly : op.apply seqs = some seqs') :
    ∃ world' ids', op.run world = some world' ∧ Inv world' seqs' ids' := by
  cases op with
  | new =>
    cases happly
    obtain ⟨ids', h'⟩ := h.push .new (.refl world.heap [])
    exact ⟨_, ids', rfl, h'⟩
  | clone l junk =>
    obtain ⟨xs, hxs, heq⟩ := Option.bind_eq_some_iff.mp happly
    cases heq
    obtain ⟨list, hlist, hholds⟩ := h.exists_list hxs
    have hset : world.lists.set l list = world.lists := by
      obtain ⟨hl, rfl⟩ := List.getElem?_eq_some_iff.mp hlist
      exact List.set_getElem_self hl
    by_cases hne : xs = []
    · subst hne
      obtain rfl := hfits [] hxs rfl
      obtain ⟨ids', h'⟩ := h.push .new (.refl world.heap [])
      refine ⟨_, ids', ?_, h'⟩
      simp only [Op.run, hlist, Option.bind_eq_bind, Option.bind_some, clone_nil hholds, hset]
      rfl
    · obtain ⟨heap', copy, idsC, hrun, hcopy, hframe⟩ := hholds.clone hne junk
      obtain ⟨ids', h'⟩ := h.push hcopy hframe
      refine ⟨_, ids', ?_, h'⟩
      simp only [Op.run, hlist, Option.bind_eq_bind, Option.bind_some, hrun, hset]
  | addAll l l2 =>
    obtain ⟨hne, heq⟩ := Option.ite_none_left_eq_some.mp happly
    obtain ⟨xs, hxs, heq⟩ := Option.bind_eq_some_iff.mp heq
    obtain ⟨ys, hys, heq⟩ := Option.bind_eq_some_iff.mp heq
    cases heq
    obtain ⟨list, hlist, hholds⟩ := h.exists_list hxs
    obtain ⟨list2, hlist2, hholds2⟩ := h.exists_list hys
    have hdisj := h.disjoint l2 l (Ne.symm hne) (List.getElem?_eq_some_iff.mp hys).1
      (List.getElem?_eq_some_iff.mp hxs).1
    obtain ⟨heap', list', hrun, hres⟩ := hholds.addAll hholds2 hdisj (hfits xs ys hxs hys)
    obtain ⟨ids', h'⟩ := h.update hxs hres
    refine ⟨_, ids', ?_, h'⟩
    simp only [Op.run, if_neg hne, hlist, hlist2, Option.bind_eq_bind, Option.bind_some, hrun]
  | change l call =>
    obtain ⟨xs, hxs, heq⟩ := Option.bind_eq_some_iff.mp happly
    obtain ⟨ys, hys, heq⟩ := Option.bind_eq_some_iff.mp heq
    cases heq
    obtain ⟨list, hlist, hholds⟩ := h.exists_list hxs
    obtain ⟨heap', list', hrun, hres⟩ := call.run_becomes hholds (hfits xs hxs) hys
    obtain ⟨ids', h'⟩ := h.update hxs hres
    refine ⟨_, ids', ?_, h'⟩
    simp only [Op.run, hlist, Option.bind_eq_bind, Option.bind_some, hrun]

/-- Any calls, as long as they fit: every list is well-formed and holds its sequence. -/
theorem ops_represented {ops : List (Op α)} {seqs : List (List (Option α))}
    (h : Runs Op.apply (fun seqs op => op.Fits seqs) [] ops seqs) :
    ∃ world, ops.foldlM Op.run World.empty = some world ∧ world.Represents seqs := by
  let R : World α → List (List (Option α)) → Prop := fun world seqs => ∃ ids, Inv world seqs ids
  have hempty : R World.empty [] :=
    ⟨fun _ => [], rfl, fun l list xs hlist => by simp [World.empty] at hlist, fun _ _ _ _ _ _ hi => by cases hi⟩
  obtain ⟨world, hrun, ids, hinv⟩ := h.simulate (fun world seqs op seqs' hR hfits happly => by
    obtain ⟨ids, hinv⟩ := hR
    obtain ⟨world', ids', hrun, hinv'⟩ := op.run_inv hinv hfits happly
    exact ⟨world', hrun, ids', hinv'⟩) hempty
  exact ⟨world, hrun, hinv.represents⟩

theorem ops_represented_two :
    Runs Op.apply (fun seqs op => op.Fits seqs) []
      [.new, .change 0 (.addLast (some 1)), .clone 0 (some 7), .change 1 (.addBefore 0 none), .addAll 0 1,
        .change 0 .reverse, .change 0 (.removeNode 1), .change 1 (.remove (some 1))]
      [[some 1, some 1], [none]] ∧
    ∃ world, ([.new, .change 0 (.addLast (some 1)), .clone 0 (some 7), .change 1 (.addBefore 0 none), .addAll 0 1,
        .change 0 .reverse, .change 0 (.removeNode 1), .change 1 (.remove (some 1))] :
      List (Op Nat)).foldlM Op.run World.empty = some world ∧ world.Represents [[some 1, some 1], [none]] := by
  have h : Runs Op.apply (fun seqs op => op.Fits seqs) []
      [.new, .change 0 (.addLast (some 1)), .clone 0 (some 7), .change 1 (.addBefore 0 none), .addAll 0 1,
        .change 0 .reverse, .change 0 (.removeNode 1), .change 1 (.remove (some 1))]
      ([[some 1, some 1], [none]] : List (List (Option Nat))) := by
    refine .cons trivial rfl (.cons ?_ rfl (.cons ?_ rfl (.cons ?_ rfl (.cons ?_ rfl (.cons ?_ rfl (.cons ?_ rfl
      (.cons ?_ rfl (.nil _))))))))
    all_goals simp [Op.Fits, Change.Fits]
  exact ⟨h, ops_represented h⟩

/-- `llist_clone` of a new list. -/
theorem clone_empty_not_represented :
    ([.new, .clone 0 (some 7)] : List (Op Nat)).foldlM Op.apply [] = some [[], []] ∧
    ¬ ∃ world, ([.new, .clone 0 (some 7)] : List (Op Nat)).foldlM Op.run World.empty = some world ∧
      world.Represents [[], []] := by
  refine ⟨rfl, ?_⟩
  rintro ⟨world, hrun, -, h⟩
  cases hrun
  obtain ⟨ids, hwf⟩ := h 1 { first := some 7, last := none, size := 0 } [] rfl rfl
  exact absurd (hwf.first_empty.mpr rfl) (Option.some_ne_none 7)

end Steps

end Renameutils.LList
