import Renameutils.HMap
import Renameutils.Lib.Linked
import Mathlib.Data.List.TakeWhile

/-!
# The chains of the hash map

`Chained map ids`: the chain of each bucket holds those of the entries `ids` that the hash of their key
sends there. The loops along a chain find the first entry with a key, and the end.
-/

namespace Renameutils.HMap

variable {ν : Type}

section Fields
variable (entries : Arena (HMapEntry ν)) (i : Nat)

def linkAt : Option (Option Nat) := (entries.cells i).map (·.next)

def keyAt : Option (Option CString) := (entries.cells i).map (·.key)

def valueAt : Option (Option ν) := (entries.cells i).map (·.value)

end Fields

/-- The bucket an entry belongs to. -/
def slotAt (map : HMap ν) (i : Nat) : Option Nat := (keyAt map.entries i).map map.hash

def Chained (map : HMap ν) (ids : List Nat) : Prop :=
  ∀ n b, map.buckets[n]? = some b →
    ∃ chain, Linked (linkAt map.entries) b chain none ∧ ∀ i, i ∈ chain ↔ i ∈ ids ∧ map.slotAt i = some n

/-- `strcmp` does not see a `NULL` when `key` is looked for among `ids`. -/
def Comparable (entries : Arena (HMapEntry ν)) (key : Option CString) (ids : List Nat) : Prop :=
  key ≠ none → ∀ i ∈ ids, keyAt entries i ≠ some none

/-- The entries of a chain that `strcmp` sees before the one with the key. -/
def upTo (entries : Arena (HMapEntry ν)) (key : Option CString) (chain : List Nat) : List Nat :=
  chain.takeWhile fun i => keyAt entries i != some key

/-- `strcmp` does not see a `NULL` when `key` is looked for. -/
def Safe (map : HMap ν) (key : Option CString) : Prop :=
  ∀ b chain, map.buckets[map.hash key]? = some b → Linked (linkAt map.entries) b chain none →
    Comparable map.entries key (upTo map.entries key chain)

variable {map map' : HMap ν} {entries : Arena (HMapEntry ν)} {entry : HMapEntry ν} {key : Option CString}
variable {i n : Nat} {p : Option Nat} {ids chain : List Nat}

theorem keyAt_of_cells (h : entries.cells i = some entry) : keyAt entries i = some entry.key := by
  rw [keyAt, h]; rfl

theorem linkAt_of_cells (h : entries.cells i = some entry) : linkAt entries i = some entry.next := by
  rw [linkAt, h]; rfl

theorem exists_of_linkAt (h : linkAt entries i = some p) :
    ∃ entry, entries.cells i = some entry ∧ entry.next = p := Option.map_eq_some_iff.mp h

theorem exists_of_keyAt (h : keyAt entries i = some key) :
    ∃ entry, entries.cells i = some entry ∧ entry.key = key := Option.map_eq_some_iff.mp h

theorem cells_ne_none (h : linkAt entries i = some p) : entries.cells i ≠ none := by
  obtain ⟨entry, he, -⟩ := exists_of_linkAt h
  rw [he]; exact Option.some_ne_none _

theorem keyAt_congr {entries' : Arena (HMapEntry ν)} (h : entries'.cells i = entries.cells i) :
    keyAt entries' i = keyAt entries i := congrArg _ h

theorem linkAt_congr {entries' : Arena (HMapEntry ν)} (h : entries'.cells i = entries.cells i) :
    linkAt entries' i = linkAt entries i := congrArg _ h

theorem hash_lt (hpos : map.buckets ≠ []) (key : Option CString) : map.hash key < map.buckets.length := by
  have hlen := List.length_pos_iff.mpr hpos
  cases key with
  | none => exact hlen
  | some str => exact Nat.mod_lt _ hlen

theorem hash_congr (h : map'.buckets.length = map.buckets.length) : map'.hash = map.hash := by
  funext key
  rw [hash, hash, h]

theorem slotAt_congr (hlen : map'.buckets.length = map.buckets.length)
    (hk : keyAt map'.entries i = keyAt map.entries i) : map'.slotAt i = map.slotAt i := by
  rw [slotAt, slotAt, hk, hash_congr hlen]

theorem slotAt_of_keyAt (h : keyAt map.entries i = some key) : map.slotAt i = some (map.hash key) := by
  rw [slotAt, h]; rfl

theorem length_lt_fuel (h : Linked (linkAt map.entries) p ids none) : ids.length < map.fuel := by
  refine Nat.lt_succ_of_le (Arena.length_le_fresh h.nodup fun i hi => ?_)
  obtain ⟨q, hq⟩ := Option.isSome_iff_exists.mp (h.isSome_of_mem hi)
  exact cells_ne_none hq

theorem isKey_eq {k : Option CString} (hc : key ≠ none → k ≠ none) : isKey key k = some (k == key) := by
  cases key with
  | none => cases k <;> rfl
  | some s =>
    obtain ⟨t, rfl⟩ := Option.ne_none_iff_exists'.mp (hc (Option.some_ne_none s))
    rw [isKey, Bool.beq_comm]; rfl

theorem Comparable.of_subset {ids' : List Nat} (hc : Comparable entries key ids) (h : ids' ⊆ ids) :
    Comparable entries key ids' := fun hk i hi => hc hk i (h hi)

theorem Comparable.isKey_eq (hc : Comparable entries key ids) (hi : i ∈ ids)
    (he : entries.cells i = some entry) :
    isKey key entry.key = some (keyAt entries i == some key) := by
  rw [HMap.isKey_eq fun hk hn => hc hk i hi (by rw [keyAt_of_cells he, hn]), keyAt_of_cells he]
  rfl

theorem not_comparable_cons (hc : ¬ Comparable entries key (i :: ids)) (he : entries.cells i = some entry) :
    isKey key entry.key = none ∨
      isKey key entry.key = some (keyAt entries i == some key) ∧ ¬ Comparable entries key ids := by
  cases key with
  | none => exact absurd (fun hk => absurd rfl hk) hc
  | some s =>
    cases hk : entry.key with
    | none => exact .inl rfl
    | some k =>
      refine .inr ⟨?_, fun hids => hc fun hs j hj => ?_⟩
      · rw [keyAt_of_cells he, hk, HMap.isKey_eq fun _ => Option.some_ne_none k]
        rfl
      · rcases List.mem_cons.mp hj with rfl | hj
        · rw [keyAt_of_cells he, hk]
          exact fun heq => Option.some_ne_none k (Option.some.inj heq)
        · exact hids hs j hj

theorem isKey_self (hkey : keyAt entries i = some key) (he : entries.cells i = some entry) :
    isKey key entry.key = some true := by
  obtain rfl : entry.key = key := Option.some.inj ((keyAt_of_cells he).symm.trans hkey)
  rw [HMap.isKey_eq id, beq_self_eq_true]

theorem upTo_subset (entries : Arena (HMapEntry ν)) (key : Option CString) (chain : List Nat) :
    upTo entries key chain ⊆ chain := List.takeWhile_subset _

theorem upTo_cons_self (hkey : keyAt entries i = some key) : upTo entries key (i :: ids) = [] :=
  List.takeWhile_cons_of_neg (by simp [hkey])

theorem upTo_cons_ne (hkey : keyAt entries i ≠ some key) :
    upTo entries key (i :: ids) = i :: upTo entries key ids :=
  List.takeWhile_cons_of_pos (by simp [hkey])

theorem upTo_eq_self (hids : ∀ i ∈ ids, keyAt entries i ≠ some key) : upTo entries key ids = ids :=
  List.takeWhile_eq_self_iff.mpr fun i hi => by simp [hids i hi]

theorem upTo_append_cons {xs ys : List Nat} (hxs : ∀ i ∈ xs, keyAt entries i ≠ some key)
    (hi : keyAt entries i = some key) : upTo entries key (xs ++ i :: ys) = xs := by
  induction xs with
  | nil => exact upTo_cons_self hi
  | cons x xs ih =>
    rw [List.cons_append, upTo_cons_ne (hxs x List.mem_cons_self), ih fun j hj => hxs j (List.mem_cons_of_mem x hj)]

theorem getEntryLoop_eq (hc : Comparable map.entries key (upTo map.entries key ids))
    (h : Linked (linkAt map.entries) p ids none) {fuel : Nat} (hf : ids.length < fuel) :
    map.getEntryLoop key fuel p = some (ids.find? fun i => keyAt map.entries i == some key) := by
  induction ids generalizing p fuel with
  | nil =>
    obtain _ | fuel := fuel
    · cases hf
    rw [h.nil_eq]; rfl
  | cons i ids ih =>
    obtain _ | fuel := fuel
    · cases hf
    obtain ⟨rfl, p', hp', h'⟩ := h.cons_inv
    obtain ⟨entry, he, rfl⟩ := exists_of_linkAt hp'
    rw [getEntryLoop, he, List.find?_cons]
    by_cases hi : keyAt map.entries i = some key
    · simp [isKey_self hi he, hi]
    · rw [upTo_cons_ne hi] at hc
      have hkey := hc.isKey_eq List.mem_cons_self he
      have hrest := ih (hc.of_subset (List.subset_cons_self ..)) h' (Nat.lt_of_succ_lt_succ hf)
      have hne : (keyAt map.entries i == some key) = false := by simpa using hi
      simpa [hkey, hne] using hrest

/-- The loops of `hmap_get_entry` and `hmap_put` pass a `NULL` to `strcmp` if one comes first. -/
theorem getEntryLoop_eq_none (hc : ¬ Comparable map.entries key (upTo map.entries key ids))
    (h : Linked (linkAt map.entries) p ids none) (fuel : Nat) : map.getEntryLoop key fuel p = none := by
  induction ids generalizing p fuel with
  | nil => exact absurd (fun _ i hi => absurd hi List.not_mem_nil) hc
  | cons i ids ih =>
    obtain _ | fuel := fuel
    · rfl
    obtain ⟨rfl, p', hp', h'⟩ := h.cons_inv
    obtain ⟨entry, he, rfl⟩ := exists_of_linkAt hp'
    have hi : keyAt map.entries i ≠ some key := fun hi => hc (by
      rw [upTo_cons_self hi]
      exact fun _ j hj => absurd hj List.not_mem_nil)
    rw [upTo_cons_ne hi] at hc
    rw [getEntryLoop, he]
    obtain hnull | ⟨hkey, hrest⟩ := not_comparable_cons hc he
    · simp [hnull]
    · simpa [hkey, hi] using ih hrest h' fuel

theorem lastLoop_eq (h : Linked (linkAt map.entries) (some i) (ids ++ [n]) none) {fuel : Nat}
    (hf : ids.length < fuel) : map.lastLoop fuel i = some n := by
  induction ids generalizing i fuel with
  | nil =>
    obtain _ | fuel := fuel
    · cases hf
    obtain ⟨hi, p', hp', h'⟩ := h.cons_inv
    cases hi
    obtain ⟨entry, he, rfl⟩ := exists_of_linkAt hp'
    rw [lastLoop, he]
    simp [h'.nil_eq]
  | cons j ids ih =>
    obtain _ | fuel := fuel
    · cases hf
    obtain ⟨hi, p', hp', h'⟩ := h.cons_inv
    cases hi
    obtain ⟨entry, he, rfl⟩ := exists_of_linkAt hp'
    rw [lastLoop, he]
    cases hn : entry.next with
    | none => rw [hn] at h'; simpa using h'.of_none.1
    | some k =>
      rw [hn] at h'
      simpa [hn] using ih h' (Nat.lt_of_succ_lt_succ hf)

/-- The loops of `hmap_remove` find the first entry with the key, and the one before it. -/
theorem removeLoop_found {xs ys : List Nat} {index : Nat} {last : Option Nat} (hc : Comparable map.entries key xs)
    (h : Linked (linkAt map.entries) p (xs ++ i :: ys) none)
    (hxs : ∀ j ∈ xs, keyAt map.entries j ≠ some key) (hi : keyAt map.entries i = some key) {fuel : Nat}
    (hf : xs.length < fuel) :
    map.removeLoop key index fuel last p = map.unlink index (xs.getLast?.or last) i := by
  induction xs generalizing p fuel last with
  | nil =>
    obtain _ | fuel := fuel
    · cases hf
    obtain ⟨rfl, p', hp', -⟩ := h.cons_inv
    obtain ⟨entry, he, -⟩ := exists_of_linkAt hp'
    rw [removeLoop, he]
    simp [isKey_self hi he]
  | cons x xs ih =>
    obtain _ | fuel := fuel
    · cases hf
    obtain ⟨rfl, p', hp', h'⟩ := h.cons_inv
    obtain ⟨entry, he, rfl⟩ := exists_of_linkAt hp'
    have hkey := hc.isKey_eq List.mem_cons_self he
    have hrest : map.removeLoop key index fuel (some x) entry.next =
        map.unlink index (xs.getLast?.or (some x)) i :=
      ih (hc.of_subset (List.subset_cons_self ..)) h' (fun j hj => hxs j (List.mem_cons_of_mem _ hj))
        (Nat.lt_of_succ_lt_succ hf)
    have hlast : (x :: xs).getLast?.or last = xs.getLast?.or (some x) := by
      rw [List.getLast?_cons]
      cases xs.getLast? <;> rfl
    rw [removeLoop, he, hlast]
    simpa [hkey, hxs x List.mem_cons_self] using hrest

/-- As long as nothing is found the loop of `hmap_remove` does what that of `hmap_get_entry` does. -/
theorem removeLoop_of_getEntryLoop {index fuel : Nat} {last : Option Nat} {r : Option (Option Nat)}
    (hr : map.getEntryLoop key fuel p = r) (hnot : ∀ i, r ≠ some (some i)) :
    map.removeLoop key index fuel last p = r.map fun _ => (map, none) := by
  induction fuel generalizing p last with
  | zero =>
    subst hr
    rfl
  | succ fuel ih =>
    obtain _ | i := p
    · subst hr
      rfl
    rw [getEntryLoop] at hr
    rw [removeLoop]
    cases he : map.entries.cells i with
    | none =>
      rw [he] at hr
      subst hr
      rfl
    | some entry =>
      rw [he] at hr
      cases hkey : isKey key entry.key with
      | none =>
        simp only [Option.bind_eq_bind, Option.bind_some, hkey, Option.bind_none] at hr ⊢
        subst hr
        rfl
      | some found =>
        simp only [Option.bind_eq_bind, Option.bind_some, hkey] at hr ⊢
        cases found with
        | true => exact absurd hr.symm (hnot i)
        | false => exact ih hr

theorem removeLoop_notFound {index : Nat} {last : Option Nat} (hc : Comparable map.entries key ids)
    (h : Linked (linkAt map.entries) p ids none) (hids : ∀ j ∈ ids, keyAt map.entries j ≠ some key)
    {fuel : Nat} (hf : ids.length < fuel) :
    map.removeLoop key index fuel last p = some (map, none) := by
  have hnone : (ids.find? fun i => keyAt map.entries i == some key) = none :=
    List.find?_eq_none.mpr fun j hj => by simpa using hids j hj
  have hrun := getEntryLoop_eq ((upTo_eq_self hids).symm ▸ hc) h hf
  rw [hnone] at hrun
  exact removeLoop_of_getEntryLoop hrun nofun

theorem removeLoop_eq_none {index : Nat} {last : Option Nat}
    (hc : ¬ Comparable map.entries key (upTo map.entries key ids)) (h : Linked (linkAt map.entries) p ids none)
    (fuel : Nat) : map.removeLoop key index fuel last p = none :=
  removeLoop_of_getEntryLoop (getEntryLoop_eq_none hc h fuel) nofun

end Renameutils.HMap
