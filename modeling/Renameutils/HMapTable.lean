import Renameutils.HMapRep
import Renameutils.Lib.MapOps

/-!
# The hash map as a table of keys that may be NULL

`Stores map ids t`: the entries `ids` of the map are those of the table `t`, whose keys are strings and `NULL`. A
call with a key that is `Safe` keeps this, and gives the answer of the table, if a `put` that rehashes has fewer than
2³² buckets to go through; with a key that is not it passes `NULL` to `strcmp`.
-/

namespace Renameutils.HMap

variable {ν : Type} {map map' : HMap ν} {ids : List Nat} {t : Table (Option CString) (Option ν)}
variable {key : Option CString} {i : Nat}

/-- A `put` of a new key rehashes a map that is `Full`. -/
def PutFits (map : HMap ν) (key : Option CString) : Prop :=
  map.containsKey key = some false → map.Full → map.buckets.length < 2 ^ 32

structure Stores (map : HMap ν) (ids : List Nat) (t : Table (Option CString) (Option ν)) : Prop where
  rep : Rep map ids
  size : map.size = ids.length
  stored : ∀ i ∈ ids, ∃ k v, keyAt map.entries i = some k ∧ valueAt map.entries i = some v ∧ t k = some v
  found : ∀ k v, t k = some v → ∃ i ∈ ids, keyAt map.entries i = some k

theorem valueAt_of_cells {entries : Arena (HMapEntry ν)} {entry : HMapEntry ν}
    (h : entries.cells i = some entry) : valueAt entries i = some entry.value := by
  rw [valueAt, h]; rfl

namespace Stores

theorem new (load : Nat → Nat) : Stores (HMap.new load : HMap ν) [] Table.empty :=
  ⟨.new load, rfl, by simp, by rintro k v ⟨⟩⟩

theorem lookup (h : Stores map ids t) (key : Option CString) :
    (∃ i entry, i ∈ ids ∧ map.entries.cells i = some entry ∧ entry.key = key ∧ t key = some entry.value) ∨
    (t key = none ∧ ∀ i ∈ ids, keyAt map.entries i ≠ some key) := by
  cases hk : t key with
  | none =>
    refine .inr ⟨rfl, fun i hi hkey => ?_⟩
    obtain ⟨k', v, hk', -, hv⟩ := h.stored i hi
    cases hk'.symm.trans hkey
    cases hk.symm.trans hv
  | some v =>
    obtain ⟨i, hi, hkey⟩ := h.found key v hk
    obtain ⟨entry, he, hek⟩ := exists_of_keyAt hkey
    obtain ⟨k', v', hk', hv', ht⟩ := h.stored i hi
    cases hk'.symm.trans hkey
    obtain rfl : entry.value = v' := Option.some.inj ((valueAt_of_cells he).symm.trans hv')
    exact .inl ⟨i, entry, hi, he, hek, hk.symm.trans ht⟩

theorem get (h : Stores map ids t) (hs : Safe map key) :
    map.get key = some (t key).join ∧ map.containsKey key = some (t key).isSome := by
  obtain ⟨r, hr, hspec⟩ := h.rep.getEntry hs
  obtain ⟨i, entry, hi, he, hek, hk⟩ | ⟨hk, hnone⟩ := h.lookup key
  · obtain rfl : r = some i := (hspec i).mpr ⟨hi, hek ▸ keyAt_of_cells he⟩
    simp [HMap.get, HMap.containsKey, hr, he, hk]
  · obtain rfl : r = none := Option.eq_none_iff_forall_ne_some.mpr fun i hi =>
      hnone i ((hspec i).mp hi).1 ((hspec i).mp hi).2
    simp [HMap.get, HMap.containsKey, hr, hk]

theorem put_new (h : Stores map ids t) (hs : Safe map key) (load : Nat → Nat)
    (hfew : map.Full → map.buckets.length < 2 ^ 32) (hk : t key = none) (value : Option ν) :
    ∃ map' ids', map.put load key value = some (map', none) ∧ Stores map' ids' (t.put key value) ∧
      Grows load map map' := by
  have hnone : ∀ i ∈ ids, keyAt map.entries i ≠ some key := by
    intro i hi hkey
    obtain ⟨k', v, hk', -, hv⟩ := h.stored i hi
    cases hk'.symm.trans hkey
    cases hk.symm.trans hv
  obtain ⟨map', i, hrun, hrep, hgrows, hki, hvi, hold⟩ := h.rep.put_new hs load hfew hnone value
  refine ⟨map', i :: ids, hrun, ⟨hrep, by rw [hgrows.size, h.size, List.length_cons],
    fun j hj => ?_, fun k' v' hk' => ?_⟩, hgrows⟩
  · rcases List.mem_cons.mp hj with rfl | hj
    · exact ⟨key, value, hki, hvi, Table.put_same ..⟩
    · obtain ⟨k', v', hk', hv', ht⟩ := h.stored j hj
      have hne : k' ≠ key := by rintro rfl; exact hnone j hj hk'
      exact ⟨k', v', (hold j hj).1.trans hk', (hold j hj).2.trans hv', (Table.put_ne _ _ hne).trans ht⟩
  · by_cases hne : k' = key
    · subst hne
      exact ⟨i, List.mem_cons_self, hki⟩
    · obtain ⟨j, hj, hkj⟩ := h.found k' v' (by rwa [Table.put_ne _ _ hne] at hk')
      exact ⟨j, List.mem_cons_of_mem _ hj, (hold j hj).1.trans hkj⟩

theorem put (h : Stores map ids t) (hs : Safe map key) (load : Nat → Nat) (hfits : PutFits map key)
    (value : Option ν) :
    ∃ map' ids', map.put load key value = some (map', (t key).join) ∧ Stores map' ids' (t.put key value) := by
  obtain ⟨i, entry, hi, he, hek, hk⟩ | ⟨hk, -⟩ := h.lookup key
  · have hki : keyAt map.entries i = some key := hek ▸ keyAt_of_cells he
    let f : HMapEntry ν → HMapEntry ν := fun e => { e with value := value }
    have hkeys : keyAt (map.entries.modify i f) = keyAt map.entries := keyAt_modify (f := f) (fun _ => rfl) i
    refine ⟨_, ids, by rw [h.rep.put_found hs load hi he hek, hk]; rfl,
      h.rep.setValue i value, h.size, fun j hj => ?_, fun k' v' hk' => ?_⟩
    · by_cases hji : j = i
      · subst hji
        refine ⟨key, value, hkeys ▸ hki, ?_, Table.put_same ..⟩
        rw [valueAt, Arena.modify_cells_self, he]; rfl
      · obtain ⟨k', v', hk', hv', ht⟩ := h.stored j hj
        have hne : k' ≠ key := fun heq => hji (h.rep.distinct j hj i hi (by rw [hk', hki, heq]))
        exact ⟨k', v', hkeys ▸ hk', (congrArg (Option.map _) (Arena.modify_cells_ne f hji)).trans hv',
          (Table.put_ne _ _ hne).trans ht⟩
    · by_cases hne : k' = key
      · subst hne
        exact ⟨i, hi, hkeys ▸ hki⟩
      · obtain ⟨j, hj, hkj⟩ := h.found k' v' (by rwa [Table.put_ne _ _ hne] at hk')
        exact ⟨j, hj, hkeys ▸ hkj⟩
  · have hmem : map.containsKey key = some false := by rw [(h.get hs).2, hk]; rfl
    obtain ⟨map', ids', hrun, h', -⟩ := h.put_new hs load (hfits hmem) hk value
    exact ⟨map', ids', by rw [hrun, hk]; rfl, h'⟩

theorem remove (h : Stores map ids t) (hs : Safe map key) :
    ∃ map' ids', map.remove key = some (map', (t key).join) ∧ Stores map' ids' (t.remove key) := by
  obtain ⟨i, entry, hi, he, hek, hk⟩ | ⟨hk, hnone⟩ := h.lookup key
  · have hki : keyAt map.entries i = some key := hek ▸ keyAt_of_cells he
    obtain ⟨map', hrun, hrep, hsize, hkeys, hvalues⟩ := h.rep.remove_found hs hi he hek
    refine ⟨map', ids.erase i, by rw [hrun, hk]; rfl, hrep, ?_, fun j hj => ?_, fun k' v' hk' => ?_⟩
    · rw [hsize, h.size, List.length_erase_of_mem hi]
    · obtain ⟨hji, hj⟩ := (h.rep.nodup.mem_erase_iff).mp hj
      obtain ⟨k', v', hk', hv', ht⟩ := h.stored j hj
      have hne : k' ≠ key := fun heq => hji (h.rep.distinct j hj i hi (by rw [hk', hki, heq]))
      exact ⟨k', v', (hkeys j hji).trans hk', (hvalues j hji).trans hv', (Table.remove_ne _ hne).trans ht⟩
    · by_cases hne : k' = key
      · subst hne
        rw [Table.remove_same] at hk'; cases hk'
      · obtain ⟨j, hj, hkj⟩ := h.found k' v' (by rwa [Table.remove_ne _ hne] at hk')
        have hji : j ≠ i := by
          rintro rfl
          exact hne (Option.some.inj (hkj.symm.trans hki))
        exact ⟨j, h.rep.nodup.mem_erase_iff.mpr ⟨hji, hj⟩, (hkeys j hji).trans hkj⟩
  · refine ⟨map, ids, by rw [h.rep.remove_notFound hs hnone, hk]; rfl, ?_⟩
    rwa [show t.remove key = t from Function.update_eq_self_iff.mpr hk.symm]

end Stores

section Unsafe

theorem exists_of_not_safe (hs : ¬ Safe map key) :
    ∃ b chain, map.buckets[map.hash key]? = some b ∧ Linked (linkAt map.entries) b chain none ∧
      ¬ Comparable map.entries key (upTo map.entries key chain) := by
  simpa only [Safe, not_forall, exists_prop] using hs

theorem getEntry_of_not_safe (hs : ¬ Safe map key) : map.getEntry key = none := by
  obtain ⟨b, chain, hget, hlinked, hc⟩ := exists_of_not_safe hs
  rw [HMap.getEntry, hget]
  exact getEntryLoop_eq_none hc hlinked map.fuel

theorem put_of_not_safe (hs : ¬ Safe map key) (load : Nat → Nat) (value : Option ν) :
    map.put load key value = none := by
  obtain ⟨b, chain, hget, hlinked, hc⟩ := exists_of_not_safe hs
  simp [HMap.put, hget, getEntryLoop_eq_none hc hlinked map.fuel]

theorem remove_of_not_safe (hs : ¬ Safe map key) : map.remove key = none := by
  obtain ⟨b, chain, hget, hlinked, hc⟩ := exists_of_not_safe hs
  rw [HMap.remove, hget]
  exact removeLoop_eq_none hc hlinked map.fuel

end Unsafe

end Renameutils.HMap
