import Renameutils.HMapTable
import Renameutils.Lib.Yields

/-!
# The hash map is a finite map

`Holds map ids t`: the entries `ids` of the map are those of the table `t`. Each call keeps this and gives
the answer of the table, and the iterator goes through the entries of the table.
-/

namespace Renameutils

namespace HMap

variable {ν : Type}

/-- A call from outside, or a rehash, at any time. -/
inductive Call (ν : Type) where
  | op (op : MapOp CString ν)
  | rehash

def step (load : Nat → Nat) (map : HMap ν) : Call ν → Option (HMap ν × MapAnswer ν)
  | .op (.put key value) => do
    let (map, old) ← map.put load (some key) (some value)
    some (map, .value old)
  | .op (.remove key) => do
    let (map, old) ← map.remove (some key)
    some (map, .value old)
  | .op (.get key) => do
    let value ← map.get (some key)
    some (map, .value value)
  | .op (.containsKey key) => do
    let b ← map.containsKey (some key)
    some (map, .member b)
  | .op .clear => do
    let map ← map.clear
    some (map, .done)
  | .op .size => some (map, .size map.size)
  | .rehash => do
    let map ← map.rehash load
    some (map, .done)

/-- What the calls mean for a table: a rehash means nothing. -/
noncomputable def spec (t : Table CString ν) : Call ν → Table CString ν × MapAnswer ν
  | .op op => t.step op
  | .rehash => (t, .done)

/-- Where a call goes through all buckets, there are fewer than 2³² of them. -/
def Fits (map : HMap ν) : Call ν → Prop
  | .op (.put key _) => map.PutFits (some key)
  | .op .clear | .rehash => map.buckets.length < 2 ^ 32
  | .op (.remove _) | .op (.get _) | .op (.containsKey _) | .op .size => True

structure Holds (map : HMap ν) (ids : List Nat) (t : Table CString ν) : Prop where
  rep : Rep map ids
  size : map.size = ids.length
  stored : ∀ i ∈ ids, ∃ k v, keyAt map.entries i = some (some k) ∧
    valueAt map.entries i = some (some v) ∧ t k = some v
  found : ∀ k v, t k = some v → ∃ i ∈ ids, keyAt map.entries i = some (some k)

variable {map map' : HMap ν} {ids : List Nat} {t : Table CString ν} {k : CString} {v : ν} {i : Nat}

/-- A table of strings as one that has no `NULL` in it. -/
def ofStrings (t : Table CString ν) : Table (Option CString) (Option ν) := fun key => key.bind fun k => (t k).map some

theorem ofStrings_join (t : Table CString ν) (k : CString) : (ofStrings t (some k)).join = t k := by
  rw [ofStrings, Option.bind_some]
  cases t k <;> rfl

theorem ofStrings_isSome (t : Table CString ν) (k : CString) : (ofStrings t (some k)).isSome = (t k).isSome :=
  Option.isSome_map

theorem ofStrings_put (t : Table CString ν) (k : CString) (v : ν) :
    ofStrings (t.put k v) = (ofStrings t).put (some k) (some v) := by
  funext key
  cases key with
  | none => rfl
  | some k' =>
    rw [Table.put_apply, ofStrings, Option.bind_some, Table.put_apply]
    by_cases hk : k' = k
    · rw [if_pos hk, if_pos (congrArg some hk)]
      rfl
    · rw [if_neg hk, if_neg fun h => hk (Option.some.inj h)]
      rfl

theorem ofStrings_remove (t : Table CString ν) (k : CString) :
    ofStrings (t.remove k) = (ofStrings t).remove (some k) := by
  funext key
  cases key with
  | none => rfl
  | some k' =>
    rw [Table.remove_apply, ofStrings, Option.bind_some, Table.remove_apply]
    by_cases hk : k' = k
    · rw [if_pos hk, if_pos (congrArg some hk)]
      rfl
    · rw [if_neg hk, if_neg fun h => hk (Option.some.inj h)]
      rfl

theorem exists_map_fst_eq {α β : Type} {P : α → β → Prop} {l : List α} (h : ∀ a ∈ l, ∃ b, P a b) :
    ∃ l' : List (α × β), l'.map Prod.fst = l ∧ ∀ x ∈ l', P x.1 x.2 := by
  induction l with
  | nil => exact ⟨[], rfl, by simp⟩
  | cons a l ih =>
    obtain ⟨b, hb⟩ := h a List.mem_cons_self
    obtain ⟨l', rfl, hl'⟩ := ih fun a ha => h a (List.mem_cons_of_mem _ ha)
    exact ⟨(a, b) :: l', rfl, List.forall_mem_cons.mpr ⟨hb, hl'⟩⟩

namespace Holds

theorem new (load : Nat → Nat) : Holds (HMap.new load : HMap ν) [] Table.empty :=
  ⟨.new load, rfl, by simp, by rintro k v ⟨⟩⟩

theorem safe (h : Holds map ids t) (key : Option CString) : Safe map key := by
  refine h.rep.safe_of_comparable ?_
  rintro - i hi hkey
  obtain ⟨k, v, hk, -⟩ := h.stored i hi
  cases hk.symm.trans hkey

theorem stores (h : Holds map ids t) : Stores map ids (ofStrings t) where
  rep := h.rep
  size := h.size
  stored i hi := by
    obtain ⟨k, v, hk, hv, ht⟩ := h.stored i hi
    exact ⟨some k, some v, hk, hv, congrArg (Option.map some) ht⟩
  found k v hkv := by
    obtain ⟨k, rfl, hk⟩ := Option.bind_eq_some_iff.mp hkv
    obtain ⟨v, hv, -⟩ := Option.map_eq_some_iff.mp hk
    exact h.found k v hv

theorem of_stores (h : Stores map ids (ofStrings t)) : Holds map ids t where
  rep := h.rep
  size := h.size
  stored i hi := by
    obtain ⟨k, v, hk, hv, hkv⟩ := h.stored i hi
    obtain ⟨k, rfl, hk'⟩ := Option.bind_eq_some_iff.mp hkv
    obtain ⟨v, ht, rfl⟩ := Option.map_eq_some_iff.mp hk'
    exact ⟨k, v, hk, hv, ht⟩
  found k v ht := h.found (some k) (some v) (congrArg (Option.map some) ht)

theorem listing (h : Holds map ids t) {l : List (Nat × CString × ν)} (hids : (l.map Prod.fst).Perm ids)
    (hl : ∀ x ∈ l, keyAt map.entries x.1 = some (some x.2.1) ∧
      valueAt map.entries x.1 = some (some x.2.2) ∧ t x.2.1 = some x.2.2) :
    t.Listing (l.map Prod.snd) := by
  have hnd := hids.nodup_iff.mpr h.rep.nodup
  refine ⟨?_, fun k v => ⟨fun hkv => ?_, fun hkv => ?_⟩⟩
  · rw [List.map_map]
    refine List.Nodup.map_on (fun x hx y hy hxy => ?_) hnd.of_map
    have hmem : ∀ z ∈ l, z.1 ∈ ids := fun z hz => hids.mem_iff.mp (List.mem_map_of_mem hz)
    have hfst := h.rep.distinct x.1 (hmem x hx) y.1 (hmem y hy) (by
      rw [(hl x hx).1, (hl y hy).1, show x.2.1 = y.2.1 from hxy])
    exact List.inj_on_of_nodup_map hnd hx hy hfst
  · obtain ⟨x, hx, hxkv⟩ := List.mem_map.mp hkv
    have := (hl x hx).2.2
    rwa [hxkv] at this
  · obtain ⟨i, hi, hkey⟩ := h.found k v hkv
    obtain ⟨x, hx, rfl⟩ := List.mem_map.mp (hids.mem_iff.mpr hi)
    obtain ⟨hk, hv, ht⟩ := hl x hx
    obtain rfl : x.2.1 = k := Option.some.inj (Option.some.inj (hk.symm.trans hkey))
    obtain rfl : x.2.2 = v := Option.some.inj (ht.symm.trans hkv)
    exact List.mem_map_of_mem hx

theorem size_eq (h : Holds map ids t) : map.size = t.size := by
  obtain ⟨l, hids, hl⟩ := exists_map_fst_eq fun i hi => by
    obtain ⟨k, v, hkv⟩ := h.stored i hi
    exact (⟨(k, v), hkv⟩ : ∃ x : CString × ν, keyAt map.entries i = some (some x.1) ∧
      valueAt map.entries i = some (some x.2) ∧ t x.1 = some x.2)
  rw [h.size, (h.listing (hids ▸ .refl _) hl).size, List.length_map, ← hids, List.length_map]

theorem get (h : Holds map ids t) (k : CString) :
    map.get (some k) = some (t k) ∧ map.containsKey (some k) = some (t k).isSome := by
  obtain ⟨hget, hcontains⟩ := h.stores.get (h.safe (some k))
  rw [ofStrings_join] at hget
  rw [ofStrings_isSome] at hcontains
  exact ⟨hget, hcontains⟩

theorem put (h : Holds map ids t) (load : Nat → Nat) (k : CString) (v : ν) (hfits : PutFits map (some k)) :
    ∃ map' ids', map.put load (some k) (some v) = some (map', t k) ∧ Holds map' ids' (t.put k v) := by
  obtain ⟨map', ids', hrun, h'⟩ := h.stores.put (h.safe (some k)) load hfits (some v)
  rw [ofStrings_join] at hrun
  rw [← ofStrings_put] at h'
  exact ⟨map', ids', hrun, .of_stores h'⟩

theorem put_new (h : Holds map ids t) (load : Nat → Nat) (hk : t k = none) (v : ν)
    (hfew : map.Full → map.buckets.length < 2 ^ 32) :
    ∃ map' ids', map.put load (some k) (some v) = some (map', none) ∧ Holds map' ids' (t.put k v) ∧
      Grows load map map' := by
  have hk' : ofStrings t (some k) = none := by rw [ofStrings, Option.bind_some, hk]; rfl
  obtain ⟨map', ids', hrun, h', hgrows⟩ := h.stores.put_new (h.safe (some k)) load hfew hk' (some v)
  rw [← ofStrings_put] at h'
  exact ⟨map', ids', hrun, .of_stores h', hgrows⟩

theorem remove (h : Holds map ids t) (k : CString) :
    ∃ map' ids', map.remove (some k) = some (map', t k) ∧ Holds map' ids' (t.remove k) := by
  obtain ⟨map', ids', hrun, h'⟩ := h.stores.remove (h.safe (some k))
  rw [ofStrings_join] at hrun
  rw [← ofStrings_remove] at h'
  exact ⟨map', ids', hrun, .of_stores h'⟩

theorem rehash (h : Holds map ids t) (load : Nat → Nat) (hfew : map.buckets.length < 2 ^ 32) :
    ∃ map', map.rehash load = some map' ∧ Holds map' ids t := by
  obtain ⟨map', hrun, hrep, hkeys, hvalues, hsize⟩ := h.rep.rehash load hfew
  exact ⟨map', hrun, hrep, hsize.trans h.size, by rw [hkeys, hvalues]; exact h.stored,
    by rw [hkeys]; exact h.found⟩

theorem clear (h : Holds map ids t) (hfew : map.buckets.length < 2 ^ 32) :
    ∃ map', map.clear = some map' ∧ Holds map' [] Table.empty := by
  obtain ⟨map', hrun, hrep, hsize⟩ := h.rep.clear hfew
  exact ⟨map', hrun, hrep, hsize, by simp, by rintro k v ⟨⟩⟩

theorem step (h : Holds map ids t) (load : Nat → Nat) (call : Call ν) (hfits : Fits map call) :
    ∃ map', map.step load call = some (map', (spec t call).2) ∧ ∃ ids', Holds map' ids' (spec t call).1 := by
  rcases call with (⟨key, value⟩ | key | key | key | - | -) | -
  · obtain ⟨map', ids', hrun, h'⟩ := h.put load key value hfits
    exact ⟨map', by rw [HMap.step, hrun]; rfl, ids', h'⟩
  · obtain ⟨map', ids', hrun, h'⟩ := h.remove key
    exact ⟨map', by rw [HMap.step, hrun]; rfl, ids', h'⟩
  · exact ⟨map, by rw [HMap.step, (h.get key).1]; rfl, ids, h⟩
  · exact ⟨map, by rw [HMap.step, (h.get key).2]; rfl, ids, h⟩
  · obtain ⟨map', hrun, h'⟩ := h.clear hfits
    exact ⟨map', by rw [HMap.step, hrun]; rfl, [], h'⟩
  · exact ⟨map, by rw [HMap.step, h.size_eq]; rfl, ids, h⟩
  · obtain ⟨map', hrun, h'⟩ := h.rehash load hfits
    exact ⟨map', by rw [HMap.step, hrun]; rfl, ids, h'⟩

end Holds

section Iterator

/-- The entries that an iterator has not come to yet. -/
def Ahead (map : HMap ν) (it : HMapIterator) (rest : List Nat) : Prop :=
  ∃ chain later, rest = chain ++ later.flatten ∧ Linked (linkAt map.entries) it.entry chain none ∧
    List.Forall₂ (Linked (linkAt map.entries) · · none) (map.buckets.drop (it.index + 1)) later ∧
    (it.entry = none → later.flatten = []) ∧ (it.entry ≠ none → it.index < map.buckets.length)

/-- The loop ends at the first bucket that is not empty, or after the last one. -/
theorem skipEmpty_eq (hfew : map.buckets.length < 2 ^ 32) (i : Nat) :
    map.skipEmpty i = some (i + (map.buckets.drop i).findIdx (·.isSome)) := by
  have htake : map.buckets.take (2 ^ 32) = map.buckets := List.take_of_length_le (Nat.le_of_lt hfew)
  rw [skipEmpty, htake]
  cases hfind : (map.buckets.drop i).findIdx? (·.isSome) with
  | none =>
    have hall := List.findIdx_eq_length.mpr (List.findIdx?_eq_none_iff.mp hfind)
    simp only [if_pos hfew, hall, List.length_drop]
    congr 1
    omega
  | some n => rw [(List.findIdx?_eq_some_iff_findIdx_eq.mp hfind).2]

theorem ahead_skipEmpty (hfew : map.buckets.length < 2 ^ 32) {chains : List (List Nat)} {previous : Option Nat}
    (h : List.Forall₂ (Linked (linkAt map.entries) · · none) (map.buckets.drop i) chains) :
    ∃ index, map.skipEmpty i = some index ∧
      Ahead map ⟨index, map.bucketOrNull index, previous⟩ chains.flatten := by
  rw [skipEmpty_eq hfew]
  induction chains generalizing i with
  | nil =>
    have hdrop : map.buckets.drop i = [] := List.forall₂_nil_right_iff.mp h
    have hle := List.drop_eq_nil_iff.mp hdrop
    have hdrop' : map.buckets.drop (i + 1) = [] := List.drop_eq_nil_iff.mpr (Nat.le_succ_of_le hle)
    have hbucket : map.bucketOrNull i = none := by rw [bucketOrNull, List.getElem?_eq_none hle]; rfl
    refine ⟨i, by rw [hdrop]; rfl, [], [], rfl, ?_, ?_, fun _ => rfl, absurd hbucket⟩
    · rw [hbucket]; exact .nil none
    · rw [hdrop']; exact .nil
  | cons chain chains ih =>
    obtain ⟨b, bs, hb, hbs, hdrop⟩ := List.forall₂_cons_right_iff.mp h
    have hget : map.buckets[i]? = some b := by
      rw [← List.head?_drop, hdrop]; rfl
    have hdrop' : map.buckets.drop (i + 1) = bs := by
      rw [← List.tail_drop, hdrop]; rfl
    cases b with
    | none =>
      obtain ⟨rfl, -⟩ := hb.of_none
      obtain ⟨index, hindex, hahead⟩ := ih (hdrop' ▸ hbs)
      refine ⟨index, ?_, hahead⟩
      rw [← hindex, hdrop, hdrop', List.findIdx_cons, Nat.succ_add_eq_add_succ]
      rfl
    | some e =>
      have hbucket : map.bucketOrNull i = some e := by rw [bucketOrNull, hget]; rfl
      refine ⟨i, by rw [hdrop, List.findIdx_cons]; rfl, chain, chains, rfl, ?_, ?_, fun hnone => ?_,
        fun _ => (List.getElem?_eq_some_iff.mp hget).1⟩
      · rw [hbucket]; exact hb
      · rw [hdrop']; exact hbs
      · rw [hbucket] at hnone; cases hnone

theorem Ahead.stop {it : HMapIterator} (h : Ahead map it []) :
    it.hasNext = false ∧ it.next map = some (none, it) := by
  obtain ⟨chain, later, hrest, hlinked, -⟩ := h
  obtain ⟨rfl, -⟩ := List.append_eq_nil_iff.mp hrest.symm
  have hentry := hlinked.nil_eq
  rw [HMapIterator.hasNext, HMapIterator.next, hentry]
  exact ⟨rfl, rfl⟩

theorem Ahead.next (hfew : map.buckets.length < 2 ^ 32) {it : HMapIterator} {rest : List Nat}
    (h : Ahead map it (i :: rest))
    {value : Option ν} (hv : valueAt map.entries i = some value) :
    it.hasNext = true ∧ ∃ it', it.next map = some (value, it') ∧ Ahead map it' rest := by
  obtain ⟨chain, later, hrest, hlinked, hlater, hnone, hlt⟩ := h
  cases hentry : it.entry with
  | none =>
    obtain ⟨rfl, -⟩ := (hentry ▸ hlinked).of_none
    rw [hnone hentry] at hrest; cases hrest
  | some e =>
    obtain ⟨chain, p', rfl, hp', hlinked'⟩ := (hentry ▸ hlinked).of_some
    obtain ⟨rfl, rfl⟩ := List.cons.inj hrest
    obtain ⟨entry, he, rfl⟩ := exists_of_linkAt hp'
    obtain rfl : entry.value = value := Option.some.inj ((valueAt_of_cells he).symm.trans hv)
    refine ⟨by rw [HMapIterator.hasNext, hentry]; rfl, ?_⟩
    cases hn : entry.next with
    | none =>
      rw [hn] at hlinked'
      obtain ⟨rfl, -⟩ := hlinked'.of_none
      have hindex := hlt (by rw [hentry]; exact Option.some_ne_none _)
      obtain ⟨index, hskip, hahead⟩ := @ahead_skipEmpty _ _ _ hfew _ (some i) hlater
      have huint : uint32 (it.index + 1) = it.index + 1 := uint32_eq (Nat.cast_succ _).symm (by omega)
      refine ⟨_, ?_, hahead⟩
      simp only [HMapIterator.next, hentry, Option.bind_eq_bind, he, Option.bind_some, hn, huint, hskip]
    | some n =>
      rw [hn] at hlinked'
      exact ⟨{ it with entry := some n, previousEntry := some i },
        by simp only [HMapIterator.next, hentry, Option.bind_eq_bind, he, Option.bind_some, hn],
        chain, later, rfl, hlinked', hlater, fun h => (by cases h),
        fun _ => hlt (by rw [hentry]; exact Option.some_ne_none _)⟩

theorem Holds.yields (h : Holds map ids t) (hfew : map.buckets.length < 2 ^ 32) :
    ∃ it, map.iterator = some it ∧
      ∃ l, t.Listing l ∧ Yields HMapIterator.hasNext (HMapIterator.next map) it (l.map Prod.snd) := by
  obtain ⟨chains, hlinked, hperm, -⟩ := h.rep.chains
  obtain ⟨l, hids, hl⟩ := exists_map_fst_eq fun i (hi : i ∈ chains.flatten) => by
    obtain ⟨k, v, hkv⟩ := h.stored i (hperm.mem_iff.mp hi)
    exact (⟨(k, v), hkv⟩ : ∃ x : CString × ν, keyAt map.entries i = some (some x.1) ∧
      valueAt map.entries i = some (some x.2) ∧ t x.1 = some x.2)
  obtain ⟨index, hskip, hahead⟩ := @ahead_skipEmpty _ _ 0 hfew _ none hlinked
  refine ⟨_, by rw [iterator, hskip]; rfl, l.map Prod.snd, h.listing (hids ▸ hperm) hl, ?_⟩
  rw [List.map_map]
  refine Yields.of_ahead (fun it bs => Ahead map it (bs.map Prod.fst) ∧ ∀ x ∈ bs, x ∈ l)
    (fun it hit => hit.1.stop) (fun it b bs hit => ?_) ⟨?_, fun _ hx => hx⟩
  · obtain ⟨hhas, it', hnext, hit'⟩ := hit.1.next hfew (hl b (hit.2 b List.mem_cons_self)).2.1
    exact ⟨hhas, it', hnext, hit', fun x hx => hit.2 x (List.mem_cons_of_mem _ hx)⟩
  · rw [hids]
    exact hahead

end Iterator

/-- The answers are those of a finite map, and the iterator then gives each value that the finite map has, once, and
stops. -/
def AnswersAsTable (load : Nat → Nat) (calls : List (Call ν)) : Prop :=
  ∃ map, runSteps (HMap.step load) (HMap.new load) calls = some (map, (specSteps spec Table.empty calls).2) ∧
    ∃ it, map.iterator = some it ∧ ∃ l, (specSteps spec Table.empty calls).1.Listing l ∧
      Yields HMapIterator.hasNext (HMapIterator.next map) it (l.map Prod.snd)

/-- Whatever the calls are, and wherever the map is rehashed. -/
theorem calls_refine (load : Nat → Nat) (calls : List (Call ν))
    (hfits : AllSteps (HMap.step load) Fits (HMap.new load) calls)
    (hfew : ∀ map answers, runSteps (HMap.step load) (HMap.new load) calls = some (map, answers) →
      map.buckets.length < 2 ^ 32) : AnswersAsTable load calls := by
  obtain ⟨map, hrun, ids, h⟩ := run_refines_of (R := fun map t => ∃ ids, Holds map ids t)
    (fun _ _ call hcall ⟨_, h⟩ => h.step load call hcall) hfits ⟨[], .new load⟩
  exact ⟨map, hrun, h.yields (hfew map _ hrun)⟩

/-- "B" and the empty string are both in bucket 0, and the rehash separates them. -/
theorem calls_refine_rehash : AnswersAsTable (fun n => n * 3 / 4)
    [.op (.put [0x42] 1), .op (.put [] 2), .rehash, .op (.put [0x42] 3), .op (.remove []), .op (.get [0x42]),
      .op .size] := by
  refine calls_refine _ _ (.cons (fun _ _ => by decide) rfl <| .cons (fun _ _ => by decide) rfl <|
    .cons (Nat.le_of_ble_eq_true rfl) rfl <| .cons (fun _ _ => by decide) rfl <| .cons trivial rfl <|
    .cons trivial rfl <| .cons trivial rfl trivial) ?_
  rintro _ _ ⟨⟩
  decide

section Lost

/-- `(uint32_t) (buckets_length * load_factor)` in `float` for the lengths 12·2ᵏ - 1 that occur: from 2²⁴ on such a
length becomes 12·2ᵏ. -/
def defaultLoad (n : Nat) : Nat := uint32 (((if n < 2 ^ 24 then n else n + 1) * 3 / 4 : Nat) : Int)

/-- Four bytes for each number. -/
def fourBytes (i : Nat) : CString :=
  [i, i / 255, i / 255 ^ 2, i / 255 ^ 3].map fun n => UInt8.ofNat (255 - n % 255)

theorem fourBytes_inj {i j : Nat} (hi : i < 255 ^ 4) (hj : j < 255 ^ 4) (h : fourBytes i = fourBytes j) : i = j := by
  have hdigit : ∀ n m : Nat, UInt8.ofNat (255 - n % 255) = UInt8.ofNat (255 - m % 255) → n % 255 = m % 255 := by
    intro n m hnm
    have := congrArg UInt8.toNat hnm
    have hlt : ∀ n : Nat, 255 - n % 255 < UInt8.size := fun n => Nat.lt_succ_of_le (Nat.sub_le _ _)
    rw [UInt8.toNat_ofNat_of_lt' (hlt n), UInt8.toNat_ofNat_of_lt' (hlt m)] at this
    omega
  simp only [fourBytes, List.map_cons, List.map_nil, List.cons.injEq, and_true] at h
  have h₀ := hdigit _ _ h.1
  have h₁ := hdigit _ _ h.2.1
  have h₂ := hdigit _ _ h.2.2.1
  have h₃ := hdigit _ _ h.2.2.2
  omega

/-- Different keys, each with its number. -/
def puts (n : Nat) : List (Call Nat) := (List.range n).map fun i => .op (.put (fourBytes i) i)

theorem puts_succ (n : Nat) : puts (n + 1) = puts n ++ [.op (.put (fourBytes n) n)] := by
  rw [puts, List.range_succ, List.map_append]
  rfl

/-- The map after the first `n` of them, with 12·2ᵏ - 1 buckets. -/
structure Filled (n k : Nat) (map : HMap Nat) (t : Table CString Nat) : Prop where
  holds : ∃ ids, Holds map ids t
  run : runSteps (HMap.step defaultLoad) (HMap.new defaultLoad) (puts n) =
    some (map, (specSteps spec Table.empty (puts n)).2)
  table : (specSteps spec Table.empty (puts n)).1 = t
  size : map.size = n
  buckets : map.buckets.length = 12 * 2 ^ k - 1
  threshold : map.threshold = defaultLoad (12 * 2 ^ k - 1)
  absent : ∀ j, n ≤ j → j < 255 ^ 4 → t (fourBytes j) = none
  first : 0 < n → t (fourBytes 0) = some 0

namespace Filled

theorem new : Filled 0 0 (HMap.new defaultLoad) Table.empty where
  holds := ⟨[], .new _⟩
  run := rfl
  table := rfl
  size := rfl
  buckets := rfl
  threshold := rfl
  absent _ _ _ := rfl
  first h := absurd h (Nat.lt_irrefl 0)

variable {n k : Nat} {map map' : HMap Nat} {t : Table CString Nat}

theorem length_succ (k : Nat) : (12 * 2 ^ k - 1) * 2 + 1 = 12 * 2 ^ (k + 1) - 1 := by
  have hpos := Nat.two_pow_pos k
  rw [pow_succ]
  omega

theorem succ (h : Filled n k map t) (hn : n < 255 ^ 4) (hholds : ∃ ids, Holds map' ids (t.put (fourBytes n) n))
    (hput : map.put defaultLoad (some (fourBytes n)) (some n) = some (map', none))
    (hgrows : Grows defaultLoad map map') :
    Filled (n + 1) (if map.Full then k + 1 else k) map' (t.put (fourBytes n) n) where
  holds := hholds
  run := by
    have hstep : HMap.step defaultLoad map (.op (.put (fourBytes n) n)) =
        some (map', (spec t (.op (.put (fourBytes n) n))).2) := by
      rw [HMap.step, hput, spec, Table.step, h.absent n le_rfl hn]
      rfl
    rw [puts_succ, specSteps_concat, h.table]
    exact runSteps_concat h.run hstep
  table := by rw [puts_succ, specSteps_concat, h.table]; rfl
  size := by rw [hgrows.size, h.size]
  buckets := by
    split
    · next hfull => rw [(hgrows.full hfull).1, h.buckets, length_succ]
    · next hfull => rw [(hgrows.notFull hfull).1, h.buckets]
  threshold := by
    split
    · next hfull =>
      rw [(hgrows.full hfull).2, h.buckets, length_succ]
    · next hfull => rw [(hgrows.notFull hfull).2, h.threshold]
  absent j hj hj' := by
    rw [Table.put_ne _ _ fun heq => absurd (fourBytes_inj hj' hn heq) (by omega)]
    exact h.absent j (by omega) hj'
  first _ := by
    rcases Nat.eq_zero_or_pos n with rfl | hpos
    · exact Table.put_same ..
    · rw [Table.put_ne _ _ fun heq => absurd (fourBytes_inj (by omega) hn heq) (by omega)]
      exact h.first hpos

theorem put (h : Filled n k map t) (hn : n < 255 ^ 4) (hfew : map.Full → map.buckets.length < 2 ^ 32) :
    ∃ map', Filled (n + 1) (if map.Full then k + 1 else k) map' (t.put (fourBytes n) n) := by
  obtain ⟨ids, hids⟩ := h.holds
  obtain ⟨map', ids', hrun, h', hgrows⟩ := hids.put_new defaultLoad (h.absent n le_rfl hn) n hfew
  exact ⟨map', h.succ hn ⟨ids', h'⟩ hrun hgrows⟩

end Filled

/-- Up to 2415919104 keys there are at most 3221225471 buckets. -/
theorem exists_filled {n : Nat} (hn : n ≤ 2415919104) :
    ∃ k map t, k ≤ 28 ∧ n ≤ defaultLoad (12 * 2 ^ k - 1) ∧ Filled n k map t := by
  have hgrow : ∀ k < 28, defaultLoad (12 * 2 ^ k - 1) < defaultLoad (12 * 2 ^ (k + 1) - 1) := by decide
  induction n with
  | zero => exact ⟨0, _, _, by omega, by omega, .new⟩
  | succ n ih =>
    obtain ⟨k, map, t, hk, hroom, h⟩ := ih (by omega)
    have hpow : 2 ^ k ≤ 2 ^ 28 := Nat.pow_le_pow_right (by omega) hk
    obtain ⟨map', h'⟩ := h.put (by omega) fun _ => by rw [h.buckets]; omega
    by_cases hfull : map.Full
    · rw [if_pos hfull] at h'
      rw [Full, h.threshold, h.size] at hfull
      -- the last length is enough for all the keys
      have hk' : k ≠ 28 := by
        rintro rfl
        have hlast : defaultLoad (12 * 2 ^ 28 - 1) = 2415919104 := by decide
        omega
      have := hgrow k (by omega)
      exact ⟨k + 1, map', _, by omega, by omega, h'⟩
    · rw [if_neg hfull] at h'
      rw [Full, h.threshold, h.size] at hfull
      exact ⟨k, map', _, hk, by omega, h'⟩

/-- `old_capacity` is 2147483647 for 6442450943 buckets, and the first key is in a bucket after that. -/
theorem Filled.put_lost {n : Nat} {map : HMap Nat} {t : Table CString Nat} (h : Filled n 29 map t) (hpos : 0 < n)
    (hn : n < 255 ^ 4) (hfull : map.Full) :
    ∃ map', map.put defaultLoad (some (fourBytes n)) (some n) = some (map', none) ∧
      map'.get (some (fourBytes 0)) = some none := by
  obtain ⟨ids, hids⟩ := h.holds
  have hnew : ∀ i ∈ ids, keyAt map.entries i ≠ some (some (fourBytes n)) := by
    intro i hi hkey
    obtain ⟨k, v, hk, -, ht⟩ := hids.stored i hi
    cases hk.symm.trans hkey
    cases (h.absent n le_rfl hn).symm.trans ht
  obtain ⟨map', i, ids', hrun, hrep, -, hmem, hki, -, hold⟩ :=
    hids.rep.put_reached (hids.safe _) defaultLoad hnew (some n)
  have hsafe : Safe map' (some (fourBytes 0)) := by
    refine hrep.safe_of_comparable fun _ j hj => ?_
    rcases List.mem_cons.mp hj with rfl | hj
    · rw [hki]
      rintro ⟨⟩
    · obtain ⟨k, v, hk, -⟩ := hids.stored j ((hmem j).mp hj).1
      rw [(hold j hj).1, hk]
      rintro ⟨⟩
  obtain ⟨r, hget, hr⟩ := hrep.getEntry hsafe
  have hnone : r = none := by
    refine Option.eq_none_iff_forall_ne_some.mpr fun j hj => ?_
    obtain ⟨hj, hkey⟩ := (hr j).mp hj
    rcases List.mem_cons.mp hj with rfl | hj
    · have heq := fourBytes_inj hn (by decide) (Option.some.inj (Option.some.inj (hki.symm.trans hkey)))
      omega
    · obtain ⟨m, hm, hslot⟩ := ((hmem j).mp hj).2 hfull
      rw [slotAt_of_keyAt ((hold j hj).1.symm.trans hkey), hash, h.buckets] at hslot
      have hbucket : (some (fourBytes 0)).elim 0 (fun str => (strhash str).toNat % (12 * 2 ^ 29 - 1)) =
          4294936512 := by decide
      rw [hbucket] at hslot
      cases hslot
      rw [h.buckets] at hm
      exact absurd hm (by decide)
  exact ⟨map', hrun, by rw [HMap.get, hget, hnone]; rfl⟩

theorem Filled.lost {n : Nat} {map : HMap Nat} {t : Table CString Nat} (h : Filled n 29 map t)
    (hpos : 0 < n) (hn : n < 255 ^ 4) (hfull : map.Full) :
    ¬ AnswersAsTable defaultLoad (puts (n + 1) ++ [.op (.get (fourBytes 0))]) := by
  rintro ⟨map₂, hrun, -⟩
  obtain ⟨map', hput, hget⟩ := h.put_lost hpos hn hfull
  have hstep : HMap.step defaultLoad map (.op (.put (fourBytes n) n)) = some (map', .value none) := by
    rw [HMap.step, hput]
    rfl
  have hlost : HMap.step defaultLoad map' (.op (.get (fourBytes 0))) = some (map', .value none) := by
    rw [HMap.step, hget]
    rfl
  have hruns := runSteps_concat (runSteps_concat h.run hstep) hlost
  rw [← puts_succ, hrun] at hruns
  have hanswers := congrArg List.getLast? (Prod.mk.inj (Option.some.inj hruns)).2
  rw [specSteps_concat, List.getLast?_concat, List.getLast?_concat, puts_succ, specSteps_concat, h.table] at hanswers
  -- the table has the number 0 under the first key
  have hfirst : t.put (fourBytes n) n (fourBytes 0) = some 0 := by
    rw [Table.put_ne _ _ fun heq => absurd (fourBytes_inj (by decide) hn heq) (by omega)]
    exact h.first hpos
  have hvalue := MapAnswer.value.inj (Option.some.inj hanswers)
  cases hfirst.symm.trans hvalue

theorem not_answersAsTable :
    ¬ AnswersAsTable defaultLoad (puts 2415919106 ++ [.op (.get (fourBytes 0))]) := by
  obtain ⟨k, map, t, hk, hroom, h⟩ := exists_filled le_rfl
  obtain rfl : k = 28 := by
    have hless : ∀ k < 28, defaultLoad (12 * 2 ^ k - 1) < 2415919104 := by decide
    by_contra hne
    exact absurd (hless k (by omega)) (by omega)
  have hfull : map.Full := by
    rw [Full, h.threshold, h.size]
    decide
  -- this rehash still reaches every bucket, and its new threshold does not fit into a `uint32_t`
  obtain ⟨map', h'⟩ := h.put (by decide) fun _ => by rw [h.buckets]; decide
  rw [if_pos hfull] at h'
  have hfull' : map'.Full := by
    rw [Full, h'.threshold, h'.size]
    decide
  exact h'.lost (by decide) (by decide) hfull'

end Lost

end HMap

end Renameutils
