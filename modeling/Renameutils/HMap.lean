import Renameutils.CString
import Renameutils.Lib.Arena
import Renameutils.Lib.Words

/-!
# The hash map

`common/hmap.c`. The entries are on a heap; a pointer to an entry is an address (`none` is `NULL`), and so
is what a bucket holds. Keys are C strings or `NULL`, values are pointers of a type `ν` or `NULL`.

Every function gives `none` where the C code has no defined meaning: when it follows a pointer to an entry
that is not there, indexes beyond the buckets, passes `NULL` to `strcmp`, or never leaves a loop. The
indices of buckets and `old_capacity` are `uint32_t` as in the source, also where they are compared with
`buckets_length`, which is a `size_t`; `size_t` is a natural number. `(uint32_t) (buckets_length * load_factor)`
is computed in `float`; `load` is that computation. The functions have their names in the source, without
`hmap_`.
-/

namespace Renameutils

structure HMapEntry (ν : Type) where
  key : Option CString
  value : Option ν
  next : Option Nat

structure HMap (ν : Type) where
  entries : Arena (HMapEntry ν)
  buckets : List (Option Nat)
  threshold : Nat
  size : Nat

/-- `*str` is a `char`, which has a sign. -/
def strhash (str : CString) : UInt32 :=
  str.foldl (fun hash c => (hash <<< 5) - hash + c.toInt8.toInt32.toUInt32) 0

example : strhash [0xE9, 0x61] = 0xFFFFFD98 := by decide

/-- Whether an entry with the key `entryKey` is the one looked for: `entry->key == NULL` when `key` is
`NULL`, else `map->compare(key, entry->key) == 0`, where the function is `strcmp`. -/
def isKey (key entryKey : Option CString) : Option Bool :=
  match key, entryKey with
  | none, k => some k.isNone
  | some s, some k => some (s == k)
  | some _, none => none

namespace HMap

variable {ν : Type}

def defaultCapacity : Nat := 11

def new (load : Nat → Nat) : HMap ν :=
  { entries := .empty, buckets := List.replicate defaultCapacity none, threshold := load defaultCapacity,
    size := 0 }

def hash (map : HMap ν) (key : Option CString) : Nat :=
  key.elim 0 fun str => (strhash str).toNat % map.buckets.length

/-- No loop along the entries takes more steps than there are entries, unless it never ends. -/
def fuel (map : HMap ν) : Nat := map.entries.fresh + 1

/-- The loops over `entry` in `hmap_get_entry` and `hmap_put`. -/
def getEntryLoop (map : HMap ν) (key : Option CString) : Nat → Option Nat → Option (Option Nat)
  | 0, _ => none
  | _ + 1, none => some none
  | fuel + 1, some i => do
    let entry ← map.entries.cells i
    let found ← isKey key entry.key
    if found then some (some i) else getEntryLoop map key fuel entry.next

def getEntry (map : HMap ν) (key : Option CString) : Option (Option Nat) := do
  let bucket ← map.buckets[map.hash key]?
  getEntryLoop map key map.fuel bucket

def get (map : HMap ν) (key : Option CString) : Option (Option ν) := do
  match ← map.getEntry key with
  | none => some none
  | some i => do
    let entry ← map.entries.cells i
    some entry.value

def containsKey (map : HMap ν) (key : Option CString) : Option Bool := do
  let entry ← map.getEntry key
  some entry.isSome

section Rehash

/-- `while (dest->next != NULL) dest = dest->next;`. -/
def lastLoop (map : HMap ν) : Nat → Nat → Option Nat
  | 0, _ => none
  | fuel + 1, dest => do
    let entry ← map.entries.cells dest
    match entry.next with
    | none => some dest
    | some next => lastLoop map fuel next

/-- The body of the inner loop of `hmap_rehash`: `entry` goes to the end of its new bucket. Also gives the
entry that came after it. -/
def relink (map : HMap ν) (i : Nat) : Option (HMap ν × Option Nat) := do
  let entry ← map.entries.cells i
  let index := map.hash entry.key
  let map ← match ← map.buckets[index]? with
    | some dest => do
      let last ← map.lastLoop map.fuel dest
      let entries ← map.entries.write last fun e => { e with next := some i }
      some { map with entries := entries }
    | none => some { map with buckets := map.buckets.set index (some i) }
  let entry ← map.entries.cells i
  let entries ← map.entries.write i fun e => { e with next := none }
  some ({ map with entries := entries }, entry.next)

/-- The inner loop of `hmap_rehash`. -/
def relinkLoop : Nat → HMap ν → Option Nat → Option (HMap ν)
  | 0, _, _ => none
  | _ + 1, map, none => some map
  | fuel + 1, map, some i => do
    let (map, next) ← map.relink i
    relinkLoop fuel map next

/-- The loop goes up to `old_capacity`. -/
def rehash (load : Nat → Nat) (map : HMap ν) : Option (HMap ν) :=
  let oldCapacity := uint32 map.buckets.length
  let bucketsLength := map.buckets.length * 2 + 1
  (map.buckets.take oldCapacity).foldlM (fun map entry => map.relinkLoop map.fuel entry)
    { map with buckets := List.replicate bucketsLength none, threshold := load bucketsLength }

end Rehash

/-- The end of `hmap_put`: a new entry before those of its bucket. -/
def addEntry (map : HMap ν) (index : Nat) (key : Option CString) (value : Option ν) :
    Option (HMap ν × Option ν) := do
  let bucket ← map.buckets[index]?
  let (entries, i) := map.entries.alloc { key := key, value := value, next := bucket }
  some ({ map with entries := entries, buckets := map.buckets.set index (some i) }, none)

def put (load : Nat → Nat) (map : HMap ν) (key : Option CString) (value : Option ν) :
    Option (HMap ν × Option ν) := do
  let index := map.hash key
  let bucket ← map.buckets[index]?
  match ← map.getEntryLoop key map.fuel bucket with
  | some i => do
    let entry ← map.entries.cells i
    let entries ← map.entries.write i fun e => { e with value := value }
    some ({ map with entries := entries }, entry.value)
  | none => do
    let map := { map with size := map.size + 1 }
    if map.threshold < map.size then do
      let map ← map.rehash load
      map.addEntry (map.hash key) key value
    else map.addEntry index key value

/-- What `hmap_remove` does with the entry it has found; `last` is the entry before it. -/
def unlink (map : HMap ν) (index : Nat) (last : Option Nat) (i : Nat) : Option (HMap ν × Option ν) := do
  let entry ← map.entries.cells i
  let map ← match last with
    | none => some { map with buckets := map.buckets.set index entry.next }
    | some last => do
      let entries ← map.entries.write last fun e => { e with next := entry.next }
      some { map with entries := entries }
  let entries ← map.entries.free i
  some ({ map with entries := entries, size := map.size - 1 }, entry.value)

/-- The loops of `hmap_remove`. -/
def removeLoop (map : HMap ν) (key : Option CString) (index : Nat) :
    Nat → Option Nat → Option Nat → Option (HMap ν × Option ν)
  | 0, _, _ => none
  | _ + 1, _, none => some (map, none)
  | fuel + 1, last, some i => do
    let entry ← map.entries.cells i
    let found ← isKey key entry.key
    if found then map.unlink index last i
    else removeLoop map key index fuel (some i) entry.next

def remove (map : HMap ν) (key : Option CString) : Option (HMap ν × Option ν) := do
  let index := map.hash key
  let bucket ← map.buckets[index]?
  removeLoop map key index map.fuel none bucket

/-- The inner loop of `hmap_clear`. -/
def freeLoop : Nat → Arena (HMapEntry ν) → Option Nat → Option (Arena (HMapEntry ν))
  | 0, _, _ => none
  | _ + 1, entries, none => some entries
  | fuel + 1, entries, some i => do
    let entry ← entries.cells i
    let entries ← entries.free i
    freeLoop fuel entries entry.next

/-- A `uint32_t` does not get to a `buckets_length` of 2³² or more. -/
def clear (map : HMap ν) : Option (HMap ν) := do
  guard (map.buckets.length < 2 ^ 32)
  let entries ← map.buckets.foldlM (fun entries entry => freeLoop map.fuel entries entry) map.entries
  some { map with entries := entries, buckets := map.buckets.map fun _ => none, size := 0 }

end HMap

section Iterator
variable {ν : Type}

structure HMapIterator where
  index : Nat
  entry : Option Nat
  previousEntry : Option Nat

namespace HMap

/-- `while (i < map->buckets_length && map->buckets[i] == NULL) i++;`. After 2³² - 1 comes 0. -/
def skipEmpty (map : HMap ν) (i : Nat) : Option Nat :=
  let reached := map.buckets.take (2 ^ 32)
  match (reached.drop i).findIdx? (·.isSome) with
  | some n => some (i + n)
  | none =>
    if map.buckets.length < 2 ^ 32 then some (max i map.buckets.length) else reached.findIdx? (·.isSome)

/-- `(i < map->buckets_length ? map->buckets[i] : NULL)`. -/
def bucketOrNull (map : HMap ν) (i : Nat) : Option Nat := map.buckets[i]?.join

def iterator (map : HMap ν) : Option HMapIterator := do
  let i ← map.skipEmpty 0
  some { index := i, entry := map.bucketOrNull i, previousEntry := none }

end HMap

namespace HMapIterator

/-- `hmap_iterator_has_next`. -/
def hasNext (it : HMapIterator) : Bool := it.entry.isSome

/-- `hmap_iterator_next`. -/
def next (map : HMap ν) (it : HMapIterator) : Option (Option ν × HMapIterator) :=
  match it.entry with
  | none => some (none, it)
  | some i => do
    let entry ← map.entries.cells i
    match entry.next with
    | some n => some (entry.value, { it with entry := some n, previousEntry := some i })
    | none => do
      let index ← map.skipEmpty (uint32 (it.index + 1))
      some (entry.value, { index := index, entry := map.bucketOrNull index, previousEntry := some i })

end HMapIterator
end Iterator

end Renameutils
