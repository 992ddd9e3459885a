import Renameutils.Lib.Arena
import Renameutils.Lib.Block
import Renameutils.Lib.Words

/-!
# The linked list

`common/llist.c`. The nodes of all lists are on one heap. A pointer to a node is an address (`none` is `NULL`), and
data are pointers of a type `α` or `NULL`. Counters and indices are `uint32_t` and `int32_t` as in the source. The
functions have their names there, without `llist_` and `lnode_`.

Every function gives `none` where the C code has no defined meaning (it follows `NULL` or a pointer to a node that
was freed, writes outside an array, or never leaves a loop), and where it calls `internal_error`, which does not
return. What `xmalloc` gives is not initialised: `junk` is what the memory holds.
-/

namespace Renameutils

structure LNode (α : Type) where
  data : Option α
  next : Option Nat
  previous : Option Nat

abbrev LHeap (α : Type) := Arena (LNode α)

structure LList where
  first : Option Nat
  last : Option Nat
  size : Nat

variable {α : Type}

namespace LHeap

/-- `*node`. -/
def deref (heap : LHeap α) (node : Option Nat) : Option (LNode α) := node.bind heap.cells

/-- `node->data = data`. -/
def setData (heap : LHeap α) (node : Option Nat) (data : Option α) : Option (LHeap α) :=
  node.bind fun i => heap.write i fun n => { n with data := data }

/-- `node->next = next`. -/
def setNext (heap : LHeap α) (node next : Option Nat) : Option (LHeap α) :=
  node.bind fun i => heap.write i fun n => { n with next := next }

/-- `node->previous = previous`. -/
def setPrevious (heap : LHeap α) (node previous : Option Nat) : Option (LHeap α) :=
  node.bind fun i => heap.write i fun n => { n with previous := previous }

/-- `free(node)`. -/
def freeNode (heap : LHeap α) (node : Option Nat) : Option (LHeap α) := node.bind heap.free

/-- No loop along the nodes takes more steps than there are nodes, unless it never ends. -/
def fuel (heap : LHeap α) : Nat := heap.fresh + 1

end LHeap

namespace LList

open LHeap

/-- `list->size++`. -/
def sizeUp (list : LList) : Nat := uint32 (list.size + 1)

/-- `list->size--`. -/
def sizeDown (list : LList) : Nat := uint32 (list.size - 1)

/-- `if (node != NULL) node->next = next; else list->first = next;`. -/
def linkNext (heap : LHeap α) (list : LList) (node next : Option Nat) : Option (LHeap α × LList) :=
  if node = none then some (heap, { list with first := next })
  else do some (← setNext heap node next, list)

/-- `if (node != NULL) node->previous = previous; else list->last = previous;`. -/
def linkPrevious (heap : LHeap α) (list : LList) (node previous : Option Nat) : Option (LHeap α × LList) :=
  if node = none then some (heap, { list with last := previous })
  else do some (← setPrevious heap node previous, list)

def new : LList := { first := none, last := none, size := 0 }

def getFirst (heap : LHeap α) (list : LList) : Option (Option α) :=
  if list.size = 0 then some none else do some (← deref heap list.first).data

def getLast (heap : LHeap α) (list : LList) : Option (Option α) :=
  if list.size = 0 then some none else do some (← deref heap list.last).data

section Ends

def removeFirst (heap : LHeap α) (list : LList) : Option (LHeap α × LList × Option α) :=
  if list.size = 0 then some (heap, list, none)
  else do
    let entry ← deref heap list.first
    let (heap', list') ← linkPrevious heap { list with size := list.sizeDown } entry.next none
    let heap' ← freeNode heap' list.first
    some (heap', { list' with first := entry.next }, entry.data)

def removeLast (heap : LHeap α) (list : LList) : Option (LHeap α × LList × Option α) :=
  if list.size = 0 then some (heap, list, none)
  else do
    let entry ← deref heap list.last
    let (heap', list') ← linkNext heap { list with size := list.sizeDown } entry.previous none
    let heap' ← freeNode heap' list.last
    some (heap', { list' with last := entry.previous }, entry.data)

def addFirst (heap : LHeap α) (list : LList) (data : Option α) : Option (LHeap α × LList) :=
  if list.size = 0 then
    let (heap, entry) := heap.alloc { data := data, next := none, previous := none }
    some (heap, { first := some entry, last := some entry, size := list.sizeUp })
  else do
    let (heap, entry) := heap.alloc { data := data, next := list.first, previous := none }
    let heap ← setPrevious heap list.first (some entry)
    some (heap, { list with first := some entry, size := list.sizeUp })

/-- `llist_add_last_entry`, with the allocation of the entry in its callers. -/
def addLastEntry (heap : LHeap α) (list : LList) (data : Option α) : Option (LHeap α × LList) :=
  if list.size = 0 then
    let (heap, entry) := heap.alloc { data := data, next := none, previous := none }
    some (heap, { first := some entry, last := some entry, size := list.sizeUp })
  else do
    let (heap, entry) := heap.alloc { data := data, next := none, previous := list.last }
    let heap ← setNext heap list.last (some entry)
    some (heap, { list with last := some entry, size := list.sizeUp })

def addLast (heap : LHeap α) (list : LList) (data : Option α) : Option (LHeap α × LList) :=
  addLastEntry heap list data

end Ends

/-- The pointers of `llist_remove_entry`. -/
def unlinkEntry (heap : LHeap α) (list : LList) (entry : Option Nat) : Option (LHeap α × LList) :=
  if list.size = 1 then some (heap, { list with first := none, last := none })
  else if entry = list.first then do
    let next := (← deref heap entry).next
    some (← setPrevious heap next none, { list with first := next })
  else if entry = list.last then do
    let previous := (← deref heap entry).previous
    some (← setNext heap previous none, { list with last := previous })
  else do
    let ⟨_, next, previous⟩ ← deref heap entry
    let heap ← setPrevious heap next previous
    some (← setNext heap previous next, list)

def removeEntry (heap : LHeap α) (list : LList) (entry : Option Nat) : Option (LHeap α × LList) := do
  let (heap, list) ← unlinkEntry heap list entry
  some (← freeNode heap entry, { list with size := list.sizeDown })

section Search

variable [DecidableEq α]

/-- The loops that look for data along `link`: the entry with the data, or `NULL`, and how far `index` is then. Past
2³¹ - 1, where C does not say what `index++` is, it goes on at -2³¹ as the machine's addition does. -/
def searchLoop (heap : LHeap α) (data : Option α) (link : LNode α → Option Nat) (step : Int) :
    Nat → Option Nat → Int → Option (Option Nat × Int)
  | 0, _, _ => none
  | _ + 1, none, index => some (none, index)
  | fuel + 1, some i, index => do
    let entry ← heap.cells i
    if entry.data = data then some (some i, index)
    else searchLoop heap data link step fuel (link entry) (int32 (index + step))

def remove (heap : LHeap α) (list : LList) (data : Option α) : Option (LHeap α × LList × Bool) := do
  let (entry, _) ← searchLoop heap data LNode.next 1 heap.fuel list.first 0
  if entry = none then some (heap, list, false)
  else do
    let (heap, list) ← removeEntry heap list entry
    some (heap, list, true)

def contains (heap : LHeap α) (list : LList) (data : Option α) : Option Bool := do
  let (entry, _) ← searchLoop heap data LNode.next 1 heap.fuel list.first 0
  some (entry ≠ none)

def indexOf (heap : LHeap α) (list : LList) (data : Option α) : Option Int := do
  let (entry, index) ← searchLoop heap data LNode.next 1 heap.fuel list.first 0
  some (if entry = none then -1 else index)

def lastIndexOf (heap : LHeap α) (list : LList) (data : Option α) : Option Int := do
  let (entry, index) ← searchLoop heap data LNode.previous (-1) heap.fuel list.last (int32 (list.size - 1))
  some (if entry = none then -1 else index)

end Search

section Index

/-- `while (index-- > 0) entry = entry->next;`. -/
def forwardLoop (heap : LHeap α) : Nat → Option Nat → Option (Option Nat)
  | 0, entry => some entry
  | index + 1, entry => do forwardLoop heap index (← deref heap entry).next

/-- `while (++index < size) entry = entry->previous;`. -/
def backwardLoop (heap : LHeap α) (size : Nat) : Nat → Nat → Option Nat → Option (Option Nat)
  | 0, _, _ => none
  | fuel + 1, index, entry =>
    if uint32 (index + 1) < size then do
      backwardLoop heap size fuel (uint32 (index + 1)) (← deref heap entry).previous
    else some entry

def getEntry (heap : LHeap α) (list : LList) (index : Nat) : Option (Option Nat) :=
  if index < list.size / 2 then forwardLoop heap index list.first
  else backwardLoop heap list.size (list.size + 1) index list.last

def get (heap : LHeap α) (list : LList) (index : Nat) : Option (Option α) :=
  if list.size ≤ index then some none
  else do
    let entry ← getEntry heap list index
    some (← deref heap entry).data

/-- `llist_set`. It stores `old_data` where the old data already are. -/
def set (heap : LHeap α) (list : LList) (index : Nat) (_data : Option α) : Option (LHeap α × Option α) :=
  if list.size ≤ index then some (heap, none)
  else do
    let entry ← getEntry heap list index
    let oldData := (← deref heap entry).data
    some (← setData heap entry oldData, oldData)

/-- `llist_add_all`, where `list2` is not the list itself. -/
def addAll (heap : LHeap α) (list list2 : LList) : Option (LHeap α × LList) :=
  (List.range list2.size).foldlM (fun (heap, list) c => do
    let entry ← getEntry heap list2 c
    addLast heap list (← deref heap entry).data) (heap, list)

def addAt (heap : LHeap α) (list : LList) (index : Nat) (data : Option α) : Option (LHeap α × LList) :=
  if list.size < index then some (heap, list)
  else if index < list.size then do
    let after ← getEntry heap list index
    let previous := (← deref heap after).previous
    let (heap, entry) := heap.alloc { data := data, next := after, previous := previous }
    let (heap, list) ← linkNext heap list previous (some entry)
    let heap ← setPrevious heap after (some entry)
    some (heap, { list with size := list.sizeUp })
  else addLastEntry heap list data

def removeAt (heap : LHeap α) (list : LList) (index : Nat) : Option (LHeap α × LList × Option α) :=
  if list.size ≤ index then some (heap, list, none)
  else do
    let entry ← getEntry heap list index
    let data := (← deref heap entry).data
    let (heap, list) ← removeEntry heap list entry
    some (heap, list, data)

end Index

/-- The loop of `llist_clear`. -/
def clearLoop : Nat → LHeap α → Option Nat → Option (LHeap α)
  | 0, _, _ => none
  | _ + 1, heap, none => some heap
  | fuel + 1, heap, some i => do
    let entry ← heap.cells i
    let heap ← heap.free i
    clearLoop fuel heap entry.next

def clear (heap : LHeap α) (list : LList) : Option (LHeap α × LList) := do
  let heap ← clearLoop heap.fuel heap list.first
  some (heap, { first := none, last := none, size := 0 })

section Clone

/-- The loop of `llist_clone`: a new entry for each `entry`, after `previous`. -/
def cloneLoop (junk : Option Nat) : Nat → LHeap α → LList → Option Nat → Option Nat →
    Option (LHeap α × LList × Option Nat)
  | 0, _, _, _, _ => none
  | _ + 1, heap, copy, previous, none => some (heap, copy, previous)
  | fuel + 1, heap, copy, previous, some i => do
    let entry ← heap.cells i
    let (heap, newEntry) := heap.alloc { data := entry.data, next := junk, previous := previous }
    let (heap, copy) ← linkNext heap copy previous (some newEntry)
    cloneLoop junk fuel heap copy (some newEntry) entry.next

/-- `llist_clone`: the list, to whose `first` it assigns when there is no entry, and the copy. -/
def clone (junk : Option Nat) (heap : LHeap α) (list : LList) : Option (LHeap α × LList × LList) := do
  let copy : LList := { first := junk, last := junk, size := list.size }
  let (heap, copy, previous) ← cloneLoop junk heap.fuel heap copy none list.first
  let (heap, list) ← linkNext heap list previous none
  some (heap, list, { copy with last := previous })

end Clone

section Arrays

/-- The loop `array[index++] = entry->data`. -/
def arrayLoop (heap : LHeap α) : Nat → Block (Option α) → Nat → Option Nat → Option (Block (Option α) × Nat)
  | 0, _, _, _ => none
  | _ + 1, array, index, none => some (array, index)
  | fuel + 1, array, index, some i => do
    let entry ← heap.cells i
    let array ← array.store index [some entry.data]
    arrayLoop heap fuel array (uint32 (index + 1)) entry.next

def toArray (heap : LHeap α) (list : LList) : Option (Block (Option α)) := do
  let (array, _) ← arrayLoop heap heap.fuel (Block.alloc list.size) 0 list.first
  some array

def toNullTerminatedArray (heap : LHeap α) (list : LList) : Option (Block (Option α)) := do
  let (array, index) ← arrayLoop heap heap.fuel (Block.alloc (uint32 (list.size + 1))) 0 list.first
  array.store index [some none]

end Arrays

section Iterator

/-- What `LListIteratorPriv` points to besides the list. -/
structure LListIterator where
  entry : Option Nat

def iterator (list : LList) : LListIterator := { entry := list.first }

def iteratorHasNext (it : LListIterator) : Bool := it.entry ≠ none

def iteratorNext (heap : LHeap α) (it : LListIterator) : Option (LListIterator × Option α) := do
  let entry ← deref heap it.entry
  some ({ entry := entry.next }, entry.data)

def iteratorRemove (heap : LHeap α) (list : LList) (it : LListIterator) : Option (LHeap α × LList) :=
  if list.first = it.entry then none
  else if it.entry = none then removeEntry heap list list.last
  else do removeEntry heap list (← deref heap it.entry).previous

end Iterator

/-- The loop of `llist_reverse`. -/
def reverseLoop : Nat → LHeap α → Option Nat → Option Nat → Option (LHeap α)
  | 0, _, _, _ => none
  | fuel + 1, heap, head, tail =>
    if head = tail then some heap
    else do
      let headNode ← deref heap head
      if headNode.previous = tail then some heap
      else do
        let tailNode ← deref heap tail
        let heap ← setData heap head tailNode.data
        let heap ← setData heap tail headNode.data
        reverseLoop fuel heap headNode.next tailNode.previous

def reverse (heap : LHeap α) (list : LList) : Option (LHeap α) := reverseLoop heap.fuel heap list.first list.last

end LList

namespace LNode

open LHeap LList

def remove (heap : LHeap α) (list : LList) (node : Option Nat) : Option (LHeap α × LList) := removeEntry heap list node

/-- The new entry of `lnode_add_after` and `lnode_add_before`. -/
def addBetween (heap : LHeap α) (list : LList) (previous next : Option Nat) (data : Option α) :
    Option (LHeap α × LList × Option Nat) := do
  let (heap, entry) := heap.alloc { data := data, next := next, previous := previous }
  let (heap, list) ← linkPrevious heap list next (some entry)
  let (heap, list) ← linkNext heap list previous (some entry)
  some (heap, { list with size := list.sizeUp }, some entry)

def addAfter (heap : LHeap α) (list : LList) (node : Option Nat) (data : Option α) :
    Option (LHeap α × LList × Option Nat) := do
  let next := (← deref heap node).next
  if next = none then do
    let (heap, list) ← addLast heap list data
    some (heap, list, list.last)
  else addBetween heap list node next data

def addBefore (heap : LHeap α) (list : LList) (node : Option Nat) (data : Option α) :
    Option (LHeap α × LList × Option Nat) := do
  let previous := (← deref heap node).previous
  if previous = none then do
    let (heap, list) ← addFirst heap list data
    some (heap, list, list.first)
  else addBetween heap list previous node data

end LNode

end Renameutils
