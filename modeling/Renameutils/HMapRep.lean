import Renameutils.HMapRehash

/-!
# What the operations of the hash map do

`Rep map ids`: the entries of the map are `ids`, each on the chain of its bucket, and no two of them have
the same key. There is one lemma for each operation.
-/

namespace Renameutils.HMap

variable {ν : Type}

structure Rep (map : HMap ν) (ids : List Nat) : Prop where
  nodup : ids.Nodup
  buckets : map.buckets ≠ []
  alloc : ∀ i ∈ ids, keyAt map.entries i ≠ none
  distinct : ∀ i ∈ ids, ∀ j ∈ ids, keyAt map.entries i = keyAt map.entries j → i = j
  chained : Chained map ids

variable {map map' : HMap ν} {entry : HMapEntry ν} {key : Option CString} {value : Option ν}
variable {i : Nat} {ids : List Nat}

theorem Rep.setSize (h : Rep map ids) (n : Nat) : Rep { map with size := n } ids :=
  ⟨h.nodup, h.buckets, h.alloc, h.distinct, h.chained⟩

theorem exists_list_of_forall {α β : Type} {P : Nat → α → β → Prop} {l : List α}
    (h : ∀ n a, l[n]? = some a → ∃ b, P n a b) :
    ∃ l' : List β, l'.length = l.length ∧ ∀ n a b, l[n]? = some a → l'[n]? = some b → P n a b := by
  induction l generalizing P with
  | nil => exact ⟨[], rfl, by simp⟩
  | cons a l ih =>
    obtain ⟨b, hb⟩ := h 0 a rfl
    obtain ⟨l', hlen, hl'⟩ := @ih (fun n => P (n + 1)) fun n a ha => h (n + 1) a ha
    refine ⟨b :: l', by rw [List.length_cons, List.length_cons, hlen], fun n => ?_⟩
    cases n with
    | zero => rintro _ _ ⟨⟩ ⟨⟩; exact hb
    | succ n => exact hl' n

namespace Rep

theorem slotAt_lt (h : Rep map ids) (hi : i ∈ ids) :
    ∃ n, n < map.buckets.length ∧ map.slotAt i = some n := by
  obtain ⟨key, hkey⟩ := Option.ne_none_iff_exists'.mp (h.alloc i hi)
  exact ⟨_, hash_lt h.buckets key, slotAt_of_keyAt hkey⟩

theorem chains (h : Rep map ids) :
    ∃ chains, List.Forall₂ (Linked (linkAt map.entries) · · none) map.buckets chains ∧
      chains.flatten.Perm ids ∧
      ∀ n (hn : n < chains.length) i, i ∈ chains[n] ↔ i ∈ ids ∧ map.slotAt i = some n := by
  obtain ⟨chains, hlen, hchains⟩ := exists_list_of_forall h.chained
  have hget : ∀ n (hn : n < chains.length), Linked (linkAt map.entries) map.buckets[n] chains[n] none ∧
      ∀ i, i ∈ chains[n] ↔ i ∈ ids ∧ map.slotAt i = some n := fun n hn =>
    hchains n _ _ (List.getElem?_eq_getElem _) (List.getElem?_eq_getElem hn)
  refine ⟨chains, List.forall₂_iff_get.mpr ⟨hlen.symm, fun n _ hn => (hget n hn).1⟩, ?_, fun n hn => (hget n hn).2⟩
  refine (List.perm_ext_iff_of_nodup (List.nodup_flatten.mpr ⟨fun c hc => ?_, ?_⟩) h.nodup).mpr fun i => ?_
  · obtain ⟨n, hn, rfl⟩ := List.getElem_of_mem hc
    exact (hget n hn).1.nodup
  · refine List.pairwise_iff_getElem.mpr fun n m hn hm hlt i hi hi' => ?_
    have := ((hget n hn).2 i |>.mp hi).2.symm.trans ((hget m hm).2 i |>.mp hi').2
    exact Nat.ne_of_lt hlt (Option.some.inj this)
  · rw [List.mem_flatten]
    constructor
    · rintro ⟨c, hc, hi⟩
      obtain ⟨n, hn, rfl⟩ := List.getElem_of_mem hc
      exact ((hget n hn).2 i |>.mp hi).1
    · intro hi
      obtain ⟨n, hn, hslot⟩ := h.slotAt_lt hi
      exact ⟨chains[n], List.getElem_mem _, (hget n (hlen ▸ hn)).2 i |>.mpr ⟨hi, hslot⟩⟩

theorem congr_mem {ids' : List Nat} (h : Rep map ids) (hnd : ids'.Nodup) (hmem : ∀ i, i ∈ ids' ↔ i ∈ ids) :
    Rep map ids' where
  nodup := hnd
  buckets := h.buckets
  alloc i hi := h.alloc i ((hmem i).mp hi)
  distinct i hi j hj := h.distinct i ((hmem i).mp hi) j ((hmem j).mp hj)
  chained := h.chained.congr_mem hmem

/-- `hmap_rehash` keeps the entries of the buckets that its loop reaches. -/
theorem rehash_reached (h : Rep map ids) (load : Nat → Nat) :
    ∃ map' ids', map.rehash load = some map' ∧ Rep map' ids' ∧
      (∀ i, i ∈ ids' ↔ i ∈ ids ∧ ∃ n < uint32 map.buckets.length, map.slotAt i = some n) ∧
      Kept { map with
        buckets := List.replicate (map.buckets.length * 2 + 1) none
        threshold := load (map.buckets.length * 2 + 1) } map' := by
  let start : HMap ν :=
    { map with
      buckets := List.replicate (map.buckets.length * 2 + 1) none
      threshold := load (map.buckets.length * 2 + 1) }
  have hpos : start.buckets ≠ [] := List.ne_nil_of_length_pos (by simp [start])
  have hch : Chained start [] := by
    intro n b hb
    obtain rfl : b = none := List.eq_of_mem_replicate (List.mem_of_getElem? hb)
    exact ⟨[], .nil none, by simp⟩
  obtain ⟨chains, hlinked, hperm, hslots⟩ := h.chains
  let reached := chains.take (uint32 map.buckets.length)
  have hreached : reached.flatten.Sublist chains.flatten := by
    rw [← List.take_append_drop (uint32 map.buckets.length) chains, List.flatten_append]
    exact List.sublist_append_left _ _
  have hnd : reached.flatten.Nodup := (hperm.nodup_iff.mpr h.nodup).sublist hreached
  obtain ⟨map', done', hrun, hkept, hch', hdone⟩ := foldlM_relinkLoop hch hpos (List.forall₂_take _ hlinked) hnd
    fun _ _ => List.not_mem_nil
  have hids : ∀ i, i ∈ reached.flatten ↔ i ∈ done' := fun i => by simp [hdone, reached]
  have hsub : ∀ i ∈ reached.flatten, i ∈ ids := fun i hi => hperm.mem_iff.mp (hreached.subset hi)
  refine ⟨map', reached.flatten, hrun, ⟨hnd, hkept.ne_nil hpos, ?_, ?_, hch'.congr_mem hids⟩, fun i => ?_, hkept⟩
  · rw [hkept.keys]; exact fun i hi => h.alloc i (hsub i hi)
  · rw [hkept.keys]; exact fun i hi j hj => h.distinct i (hsub i hi) j (hsub j hj)
  · constructor
    · intro hi
      refine ⟨hsub i hi, ?_⟩
      obtain ⟨chain, hchain, hi⟩ := List.mem_flatten.mp hi
      obtain ⟨n, hn, rfl⟩ := List.getElem_of_mem hchain
      rw [List.getElem_take] at hi
      rw [List.length_take] at hn
      exact ⟨n, by omega, ((hslots n (by omega) i).mp hi).2⟩
    · rintro ⟨hi, n, hn, hslot⟩
      obtain ⟨n', hn', hslot'⟩ := h.slotAt_lt hi
      obtain rfl : n' = n := Option.some.inj (hslot'.symm.trans hslot)
      have hlen : n' < chains.length := hlinked.length_eq ▸ hn'
      have hmem : chains[n'] ∈ reached := by
        rw [← List.getElem_take (j := uint32 map.buckets.length) (h := by rw [List.length_take]; omega)]
        exact List.getElem_mem _
      exact List.mem_flatten.mpr ⟨_, hmem, (hslots n' hlen i).mpr ⟨hi, hslot⟩⟩

/-- It reaches all of fewer than 2³² buckets. -/
theorem slotAt_lt_uint32 (h : Rep map ids) (hfew : map.buckets.length < 2 ^ 32) (hi : i ∈ ids) :
    ∃ n < uint32 map.buckets.length, map.slotAt i = some n := by
  obtain ⟨n, hn, hslot⟩ := h.slotAt_lt hi
  exact ⟨n, by rwa [uint32_eq rfl hfew], hslot⟩

/-- Then it changes only where the entries are. -/
theorem rehash (h : Rep map ids) (load : Nat → Nat) (hfew : map.buckets.length < 2 ^ 32) :
    ∃ map', map.rehash load = some map' ∧ Rep map' ids ∧ keyAt map'.entries = keyAt map.entries ∧
      valueAt map'.entries = valueAt map.entries ∧ map'.size = map.size := by
  obtain ⟨map', ids', hrun, hrep, hids, hkept⟩ := h.rehash_reached load
  refine ⟨map', hrun, hrep.congr_mem h.nodup fun i => ?_, hkept.keys, hkept.values, hkept.size⟩
  rw [hids]
  exact ⟨fun hi => ⟨hi, h.slotAt_lt_uint32 hfew hi⟩, And.left⟩

theorem safe_of_comparable (h : Rep map ids) (hc : Comparable map.entries key ids) : Safe map key := by
  intro b chain hget hlinked
  obtain ⟨chain', hlinked', hchain⟩ := h.chained _ _ hget
  obtain rfl := hlinked.unique hlinked'
  exact hc.of_subset fun i hi => ((hchain i).mp (upTo_subset _ _ _ hi)).1

theorem getEntryLoop (h : Rep map ids) (hs : Safe map key) :
    ∃ b r, map.buckets[map.hash key]? = some b ∧ map.getEntryLoop key map.fuel b = some r ∧
      ∀ i, r = some i ↔ i ∈ ids ∧ keyAt map.entries i = some key := by
  have hget := List.getElem?_eq_getElem (hash_lt h.buckets key)
  obtain ⟨chain, hlinked, hchain⟩ := h.chained _ _ hget
  have hsub : chain ⊆ ids := fun i hi => ((hchain i).mp hi).1
  refine ⟨_, _, hget, getEntryLoop_eq (hs _ chain hget hlinked) hlinked (length_lt_fuel hlinked), fun i => ?_⟩
  constructor
  · intro hi
    exact ⟨hsub (List.mem_of_find?_eq_some hi), by simpa using List.find?_some hi⟩
  · rintro ⟨hi, hkey⟩
    have hmem : i ∈ chain := (hchain i).mpr ⟨hi, slotAt_of_keyAt hkey⟩
    cases hr : chain.find? fun j => keyAt map.entries j == some key with
    | none => exact absurd hkey (by simpa using List.find?_eq_none.mp hr i hmem)
    | some j =>
      have hj : keyAt map.entries j = some key := by simpa using List.find?_some hr
      rw [h.distinct i hi j (hsub (List.mem_of_find?_eq_some hr)) (hkey.trans hj.symm)]

theorem getEntry (h : Rep map ids) (hs : Safe map key) :
    ∃ r, map.getEntry key = some r ∧ ∀ i, r = some i ↔ i ∈ ids ∧ keyAt map.entries i = some key := by
  obtain ⟨b, r, hb, hr, hspec⟩ := h.getEntryLoop hs
  exact ⟨r, by rw [HMap.getEntry, hb]; exact hr, hspec⟩

theorem setValue (h : Rep map ids) (i : Nat) (value : Option ν) :
    Rep { map with entries := map.entries.modify i fun e => { e with value := value } } ids := by
  let f : HMapEntry ν → HMapEntry ν := fun e => { e with value := value }
  have hkey : keyAt (map.entries.modify i f) = keyAt map.entries := keyAt_modify (f := f) (fun _ => rfl) i
  have hlink : linkAt (map.entries.modify i f) = linkAt map.entries := linkAt_modify (f := f) (fun _ => rfl) i
  have hslot : ∀ j, HMap.slotAt { map with entries := map.entries.modify i f } j = map.slotAt j :=
    fun j => slotAt_congr rfl (congrFun hkey j)
  refine ⟨h.nodup, h.buckets, by rw [hkey]; exact h.alloc, by rw [hkey]; exact h.distinct, ?_⟩
  intro n b hb
  obtain ⟨chain, hlinked, hchain⟩ := h.chained n b hb
  refine ⟨chain, by rw [hlink]; exact hlinked, fun j => ?_⟩
  rw [hchain, hslot]

theorem insert (h : Rep map ids) (hnew : ∀ i ∈ ids, keyAt map.entries i ≠ some key) {b : Option Nat}
    (hb : map.buckets[map.hash key]? = some b) (value : Option ν) :
    let entries := (map.entries.alloc { key := key, value := value, next := b }).1
    Rep { map with
          entries := entries
          buckets := map.buckets.set (map.hash key) (some map.entries.fresh) }
      (map.entries.fresh :: ids) := by
  intro entries
  let map' : HMap ν :=
    { map with entries := entries, buckets := map.buckets.set (map.hash key) (some map.entries.fresh) }
  have hcell : entries.cells map.entries.fresh = some ⟨key, value, b⟩ := Arena.alloc_cells_fresh ..
  have hfresh : map.entries.fresh ∉ ids := by
    intro hmem
    refine h.alloc _ hmem ?_
    rw [keyAt, Arena.cells_fresh]; rfl
  have hold : ∀ i ∈ ids, entries.cells i = map.entries.cells i := fun i hi =>
    Arena.alloc_cells_ne _ fun heq => hfresh (heq ▸ hi)
  have hkeys : ∀ i ∈ ids, keyAt entries i = keyAt map.entries i := fun i hi => keyAt_congr (hold i hi)
  have hlen : map'.buckets.length = map.buckets.length := List.length_set ..
  have hslot : map'.slotAt map.entries.fresh = some (map.hash key) := by
    have hself : map'.slotAt map.entries.fresh = some (map'.hash key) :=
      slotAt_of_keyAt (keyAt_of_cells hcell)
    rw [hself, hash_congr hlen]
  have hslots : ∀ i ∈ ids, map'.slotAt i = map.slotAt i := fun i hi => slotAt_congr hlen (hkeys i hi)
  refine ⟨List.nodup_cons.mpr ⟨hfresh, h.nodup⟩, ?_, ?_, ?_, ?_⟩
  · exact List.ne_nil_of_length_pos (hlen ▸ List.length_pos_iff.mpr h.buckets)
  · intro i hi
    rcases List.mem_cons.mp hi with rfl | hi
    · exact keyAt_of_cells hcell ▸ Option.some_ne_none _
    · exact hkeys i hi ▸ h.alloc i hi
  · intro i hi j hj hij
    rcases List.mem_cons.mp hi with rfl | hi <;> rcases List.mem_cons.mp hj with rfl | hj
    · rfl
    · exact absurd (by rw [← hkeys j hj, ← hij, keyAt_of_cells hcell]) (hnew j hj)
    · exact absurd (by rw [← hkeys i hi, hij, keyAt_of_cells hcell]) (hnew i hi)
    · exact h.distinct i hi j hj (by rw [← hkeys i hi, ← hkeys j hj, hij])
  · refine h.chained.update map' (map.hash key) (fun b' hb' => ?_) (fun n hn => ?_) (fun n hn j => ?_)
      fun j hj _ => linkAt_congr (hold j hj)
    · obtain ⟨chain, hlinked, hchain⟩ := h.chained _ _ hb
      obtain rfl : some map.entries.fresh = b' :=
        Option.some.inj ((List.getElem?_set_self (hash_lt h.buckets key)).symm.trans hb')
      refine ⟨map.entries.fresh :: chain, .cons (linkAt_of_cells hcell) (hlinked.congr fun j hj =>
        linkAt_congr (hold j ((hchain j).mp hj).1)), fun j => ?_⟩
      rw [List.mem_cons, hchain, List.mem_cons]
      constructor
      · rintro (rfl | ⟨hj, hs⟩)
        · exact ⟨.inl rfl, hslot⟩
        · exact ⟨.inr hj, (hslots j hj).trans hs⟩
      · rintro ⟨rfl | hj, hs⟩
        · exact .inl rfl
        · exact .inr ⟨hj, (hslots j hj).symm.trans hs⟩
    · exact List.getElem?_set_ne (Ne.symm hn)
    · rw [List.mem_cons]
      constructor
      · rintro ⟨rfl | hj, hs⟩
        · exact absurd (Option.some.inj (hs.symm.trans hslot)) hn
        · exact ⟨hj, (hslots j hj).symm.trans hs⟩
      · rintro ⟨hj, hs⟩
        exact ⟨.inr hj, (hslots j hj).trans hs⟩

theorem erase {xs ys : List Nat} {index : Nat} {b : Option Nat} (h : Rep map ids)
    (hchain : ∀ j, j ∈ xs ++ i :: ys ↔ j ∈ ids ∧ map.slotAt j = some index)
    (hnd : (xs ++ i :: ys).Nodup) (hlen : map'.buckets.length = map.buckets.length)
    (hbuckets : ∀ n, n ≠ index → map'.buckets[n]? = map.buckets[n]?)
    (hb : map'.buckets[index]? = some b) (hlinked : Linked (linkAt map'.entries) b (xs ++ ys) none)
    (hkeys : ∀ j, j ≠ i → keyAt map'.entries j = keyAt map.entries j)
    (hlinks : ∀ j, j ≠ i → j ∉ xs → linkAt map'.entries j = linkAt map.entries j) :
    Rep map' (ids.erase i) := by
  have hmem : ∀ j, j ∈ ids.erase i ↔ j ≠ i ∧ j ∈ ids := fun j => h.nodup.mem_erase_iff
  have hi : map.slotAt i = some index := ((hchain i).mp (by simp)).2
  have hslots : ∀ j, j ≠ i → map'.slotAt j = map.slotAt j := fun j hj => slotAt_congr hlen (hkeys j hj)
  have hxy : ∀ j, j ∈ xs ++ ys ↔ j ≠ i ∧ j ∈ xs ++ i :: ys := by
    have hni : i ∉ xs ++ ys := List.nodup_middle.mp hnd |> List.nodup_cons.mp |>.1
    intro j
    rw [List.mem_append] at hni ⊢
    rw [List.mem_append, List.mem_cons]
    constructor
    · exact fun hj => ⟨fun hji => hni (hji ▸ hj), hj.imp_right .inr⟩
    · rintro ⟨hji, hj | hj | hj⟩
      · exact .inl hj
      · exact absurd hj hji
      · exact .inr hj
  refine ⟨h.nodup.erase i, ?_, fun j hj => ?_, fun j hj k hk hjk => ?_, ?_⟩
  · exact List.ne_nil_of_length_pos (hlen ▸ List.length_pos_iff.mpr h.buckets)
  · obtain ⟨hji, hj⟩ := (hmem j).mp hj
    exact hkeys j hji ▸ h.alloc j hj
  · obtain ⟨hji, hj⟩ := (hmem j).mp hj
    obtain ⟨hki, hk⟩ := (hmem k).mp hk
    exact h.distinct j hj k hk (by rw [← hkeys j hji, ← hkeys k hki, hjk])
  · refine h.chained.update map' index (fun b' hb' => ⟨xs ++ ys, ?_, fun j => ?_⟩) hbuckets
      (fun n hn j => ?_) fun j hj hjs => hlinks j (fun heq => hjs (heq ▸ hi)) fun hx =>
        hjs ((hchain j).mp (List.mem_append_left _ hx)).2
    · cases hb.symm.trans hb'
      exact hlinked
    · rw [hxy, hchain, hmem]
      constructor
      · exact fun ⟨hji, hj, hs⟩ => ⟨⟨hji, hj⟩, (hslots j hji).trans hs⟩
      · exact fun ⟨⟨hji, hj⟩, hs⟩ => ⟨hji, hj, (hslots j hji).symm.trans hs⟩
    · rw [hmem]
      constructor
      · exact fun ⟨⟨hji, hj⟩, hs⟩ => ⟨hj, (hslots j hji).symm.trans hs⟩
      · rintro ⟨hj, hs⟩
        have hji : j ≠ i := fun heq => hn (Option.some.inj (hs.symm.trans (heq ▸ hi)))
        exact ⟨⟨hji, hj⟩, (hslots j hji).trans hs⟩

theorem unlink {xs ys : List Nat} {index : Nat} {b : Option Nat} (h : Rep map ids)
    (hb : map.buckets[index]? = some b) (hlinked : Linked (linkAt map.entries) b (xs ++ i :: ys) none)
    (hchain : ∀ j, j ∈ xs ++ i :: ys ↔ j ∈ ids ∧ map.slotAt j = some index)
    (he : map.entries.cells i = some entry) :
    ∃ map', map.unlink index xs.getLast? i = some (map', entry.value) ∧ Rep map' (ids.erase i) ∧
      map'.size = map.size - 1 ∧ (∀ j, j ≠ i → keyAt map'.entries j = keyAt map.entries j) ∧
      ∀ j, j ≠ i → valueAt map'.entries j = valueAt map.entries j := by
  have hlt : index < map.buckets.length := (List.getElem?_eq_some_iff.mp hb).1
  obtain ⟨q, hxs, hi⟩ := hlinked.split
  obtain ⟨rfl, p', hp', hys⟩ := hi.cons_inv
  obtain rfl : entry.next = p' := Option.some.inj ((linkAt_of_cells he).symm.trans hp')
  have hnd := hlinked.nodup
  have hyi : i ∉ ys := (List.nodup_cons.mp (List.nodup_append.mp hnd).2.1).1
  obtain rfl | ⟨xs, last, rfl⟩ := xs.eq_nil_or_concat'
  · -- the entry is the first of its chain
    let map' : HMap ν :=
      { map with buckets := map.buckets.set index entry.next, entries := map.entries.erase i
                 size := map.size - 1 }
    have hcells : ∀ j, j ≠ i → map'.entries.cells j = map.entries.cells j := fun j hj =>
      Arena.erase_cells_ne hj
    refine ⟨map', ?_, ?_, rfl, fun j hj => keyAt_congr (hcells j hj),
      fun j hj => congrArg _ (hcells j hj)⟩
    · simp [HMap.unlink, he, Arena.free_eq he, map']
    · refine h.erase hchain hnd (List.length_set ..) (fun n hn => List.getElem?_set_ne (Ne.symm hn))
        (List.getElem?_set_self hlt) (hys.congr fun j hj => ?_) (fun j hj => keyAt_congr (hcells j hj))
        fun j hj _ => linkAt_congr (hcells j hj)
      exact linkAt_congr (hcells j fun heq => hyi (heq ▸ hj))
  · obtain ⟨e', he'⟩ : ∃ e', map.entries.cells last = some e' := by
      obtain ⟨q, hq⟩ := Option.isSome_iff_exists.mp (hxs.isSome_of_mem (i := last) (by simp))
      obtain ⟨e', he', -⟩ := exists_of_linkAt hq
      exact ⟨e', he'⟩
    have hdis := (List.nodup_append.mp hnd).2.2
    have hli : last ≠ i := hdis last (by simp) i (by simp)
    let f : HMapEntry ν → HMapEntry ν := fun e => { e with next := entry.next }
    have hei : (map.entries.modify last f).cells i = some entry := by
      rw [Arena.modify_cells_ne _ hli.symm, he]
    let map' : HMap ν :=
      { map with entries := (map.entries.modify last f).erase i, size := map.size - 1 }
    have hcells : ∀ j, j ≠ i → map'.entries.cells j = (map.entries.modify last f).cells j :=
      fun j hj => Arena.erase_cells_ne hj
    have hkeys : ∀ j, j ≠ i → keyAt map'.entries j = keyAt map.entries j := fun j hj =>
      (keyAt_congr (hcells j hj)).trans (congrFun (keyAt_modify (f := f) (fun _ => rfl) last) j)
    have hlinks : ∀ j, j ≠ i → j ≠ last → linkAt map'.entries j = linkAt map.entries j :=
      fun j hj hl => (linkAt_congr (hcells j hj)).trans (linkAt_setNext_ne hl)
    refine ⟨map', ?_, ?_, rfl, hkeys, fun j hj =>
      (congrArg (Option.map _) (hcells j hj)).trans
        (congrFun (valueAt_modify (f := f) (fun _ => rfl) last) j)⟩
    · simp [HMap.unlink, he, Arena.write_eq _ he', Arena.free_eq hei, map', f]
    · refine h.erase hchain hnd rfl (fun _ _ => rfl) hb ?_ hkeys fun j hj hjx =>
        hlinks j hj fun heq => hjx (by simp [heq])
      refine (hxs.relink (fun j hj => ?_) ?_).append (hys.congr fun j hj => ?_)
      · refine hlinks j (hdis j (by simp [hj]) i (by simp)) fun heq => ?_
        exact (List.nodup_append.mp (List.nodup_append.mp hnd).1).2.2 j hj last (by simp) heq
      · exact (linkAt_congr (hcells last hli)).trans (linkAt_setNext he')
      · exact hlinks j (fun heq => hyi (heq ▸ hj)) fun heq =>
          hdis last (by simp) j (List.mem_cons_of_mem _ hj) heq.symm

theorem remove_found (h : Rep map ids) (hs : Safe map key) (hi : i ∈ ids)
    (he : map.entries.cells i = some entry) (hkey : entry.key = key) :
    ∃ map', map.remove key = some (map', entry.value) ∧ Rep map' (ids.erase i) ∧
      map'.size = map.size - 1 ∧ (∀ j, j ≠ i → keyAt map'.entries j = keyAt map.entries j) ∧
      ∀ j, j ≠ i → valueAt map'.entries j = valueAt map.entries j := by
  obtain ⟨b, hget⟩ : ∃ b, map.buckets[map.hash key]? = some b :=
    ⟨_, List.getElem?_eq_getElem (hash_lt h.buckets key)⟩
  have hki : keyAt map.entries i = some key := hkey ▸ keyAt_of_cells he
  obtain ⟨chain, hlinked, hchain⟩ := h.chained _ _ hget
  obtain ⟨xs, ys, rfl⟩ := List.append_of_mem ((hchain i).mpr ⟨hi, slotAt_of_keyAt hki⟩)
  have hxs : ∀ j ∈ xs, keyAt map.entries j ≠ some key := by
    intro j hj hkj
    have hji := h.distinct j ((hchain j).mp (List.mem_append_left _ hj)).1 i hi (hkj.trans hki.symm)
    exact (List.nodup_append.mp hlinked.nodup).2.2 j hj i (by simp) hji
  have hlen : xs.length < map.fuel := Nat.lt_of_le_of_lt (by simp) (length_lt_fuel hlinked)
  have hc := hs b _ hget hlinked
  rw [upTo_append_cons hxs hki] at hc
  have hrun : map.removeLoop key (map.hash key) map.fuel none b =
      map.unlink (map.hash key) (xs.getLast?.or none) i := removeLoop_found hc hlinked hxs hki hlen
  obtain ⟨map', hunlink, hrest⟩ := h.unlink hget hlinked hchain he
  refine ⟨map', ?_, hrest⟩
  rw [Option.or_none] at hrun
  rw [remove, hget]
  exact hrun.trans hunlink

theorem remove_notFound (h : Rep map ids) (hs : Safe map key)
    (hids : ∀ j ∈ ids, keyAt map.entries j ≠ some key) : map.remove key = some (map, none) := by
  have hget := List.getElem?_eq_getElem (hash_lt h.buckets key)
  obtain ⟨chain, hlinked, hchain⟩ := h.chained _ _ hget
  have hsub : chain ⊆ ids := fun i hi => ((hchain i).mp hi).1
  have hchain' : ∀ j ∈ chain, keyAt map.entries j ≠ some key := fun j hj => hids j (hsub hj)
  have hc := hs _ chain hget hlinked
  rw [upTo_eq_self hchain'] at hc
  rw [remove, hget]
  exact removeLoop_notFound hc hlinked hchain' (length_lt_fuel hlinked)

end Rep

theorem Rep.put_found (h : Rep map ids) (hs : Safe map key) (load : Nat → Nat)
    (hi : i ∈ ids) (he : map.entries.cells i = some entry) (hkey : entry.key = key) :
    map.put load key value =
      some ({ map with entries := map.entries.modify i fun e => { e with value := value } },
        entry.value) := by
  obtain ⟨b, r, hb, hr, hspec⟩ := h.getEntryLoop hs
  obtain rfl : r = some i := (hspec i).mpr ⟨hi, hkey ▸ keyAt_of_cells he⟩
  rw [HMap.put, hb]
  simp [hr, he, Arena.write_eq _ he]

section PutNew

/-- One more entry than the threshold allows is too many. -/
def Full (map : HMap ν) : Prop := map.threshold < map.size + 1

instance (map : HMap ν) : Decidable map.Full := inferInstanceAs (Decidable (_ < _))

/-- What becomes of the counters when there is a new entry. -/
structure Grows (load : Nat → Nat) (map map' : HMap ν) : Prop where
  size : map'.size = map.size + 1
  full : map.Full → map'.buckets.length = map.buckets.length * 2 + 1 ∧
    map'.threshold = load (map.buckets.length * 2 + 1)
  notFull : ¬ map.Full → map'.buckets.length = map.buckets.length ∧ map'.threshold = map.threshold

/-- `hmap_put` with a new key keeps the entries that the rehash reaches, if there is one. -/
theorem Rep.put_reached (h : Rep map ids) (hs : Safe map key) (load : Nat → Nat)
    (hnew : ∀ i ∈ ids, keyAt map.entries i ≠ some key) (value : Option ν) :
    ∃ map' i ids', map.put load key value = some (map', none) ∧ Rep map' (i :: ids') ∧ Grows load map map' ∧
      (∀ j, j ∈ ids' ↔ j ∈ ids ∧ (map.Full → ∃ n < uint32 map.buckets.length, map.slotAt j = some n)) ∧
      keyAt map'.entries i = some key ∧ valueAt map'.entries i = some value ∧
      ∀ j ∈ ids', keyAt map'.entries j = keyAt map.entries j ∧
        valueAt map'.entries j = valueAt map.entries j := by
  obtain ⟨b, r, hb, hr, hspec⟩ := h.getEntryLoop hs
  obtain rfl : r = none := Option.eq_none_iff_forall_ne_some.mpr fun i hi =>
    hnew i ((hspec i).mp hi).1 ((hspec i).mp hi).2
  -- the map into whose buckets the entry goes
  obtain ⟨map₁, ids₁, hrun, h₁, hgrows, hids, hkeys, hvalues⟩ : ∃ (map₁ : HMap ν) (ids₁ : List Nat),
      map.put load key value = map₁.addEntry (map₁.hash key) key value ∧ Rep map₁ ids₁ ∧ Grows load map map₁ ∧
      (∀ j, j ∈ ids₁ ↔ j ∈ ids ∧ (map.Full → ∃ n < uint32 map.buckets.length, map.slotAt j = some n)) ∧
      keyAt map₁.entries = keyAt map.entries ∧ valueAt map₁.entries = valueAt map.entries := by
    by_cases hfull : map.Full
    · have hlt : map.threshold < map.size + 1 := hfull
      obtain ⟨map₁, ids₁, hrun, hrep, hids, hkept⟩ := (h.setSize (map.size + 1)).rehash_reached load
      refine ⟨map₁, ids₁, by rw [HMap.put, hb]; simp [hr, hlt, hrun], hrep, ⟨hkept.size, fun _ => ⟨?_, hkept.threshold⟩,
        absurd hfull⟩, fun j => ?_, hkept.keys, hkept.values⟩
      · rw [hkept.buckets, List.length_replicate]
      · rw [hids]
        exact and_congr_right fun _ => ⟨fun hslot _ => hslot, fun hslot => hslot hfull⟩
    · have hlt : ¬ map.threshold < map.size + 1 := hfull
      refine ⟨_, ids, by rw [HMap.put, hb]; simp only [Option.bind_eq_bind, Option.bind_some, hr, if_neg hlt]; rfl,
        h.setSize (map.size + 1), ⟨rfl, fun hf => absurd hf hfull, fun _ => ⟨rfl, rfl⟩⟩, fun j => ?_, rfl, rfl⟩
      exact (and_iff_left fun hf => absurd hf hfull).symm
  obtain ⟨b₁, hb₁⟩ : ∃ b₁, map₁.buckets[map₁.hash key]? = some b₁ :=
    ⟨_, List.getElem?_eq_getElem (hash_lt h₁.buckets key)⟩
  have hcell : (map₁.entries.alloc ⟨key, value, b₁⟩).1.cells map₁.entries.fresh = some ⟨key, value, b₁⟩ :=
    Arena.alloc_cells_fresh ..
  have hins := h₁.insert (hkeys ▸ fun i hi => hnew i ((hids i).mp hi).1) hb₁ value
  refine ⟨_, _, ids₁, ?_, hins, ⟨hgrows.size, ?_, ?_⟩, hids, keyAt_of_cells hcell, by rw [valueAt, hcell]; rfl,
    fun j hj => ?_⟩
  · rw [hrun, addEntry, hb₁]; rfl
  · rw [List.length_set]; exact hgrows.full
  · rw [List.length_set]; exact hgrows.notFull
  · have hold : (map₁.entries.alloc ⟨key, value, b₁⟩).1.cells j = map₁.entries.cells j :=
      Arena.alloc_cells_ne _ fun heq => (List.nodup_cons.mp hins.nodup).1 (heq ▸ hj)
    exact ⟨(keyAt_congr hold).trans (congrFun hkeys j),
      (congrArg (Option.map _) hold).trans (congrFun hvalues j)⟩

/-- If the buckets that it has to go through are fewer than 2³², it keeps them all. -/
theorem Rep.put_new (h : Rep map ids) (hs : Safe map key) (load : Nat → Nat)
    (hfew : map.Full → map.buckets.length < 2 ^ 32)
    (hnew : ∀ i ∈ ids, keyAt map.entries i ≠ some key) (value : Option ν) :
    ∃ map' i, map.put load key value = some (map', none) ∧ Rep map' (i :: ids) ∧ Grows load map map' ∧
      keyAt map'.entries i = some key ∧ valueAt map'.entries i = some value ∧
      ∀ j ∈ ids, keyAt map'.entries j = keyAt map.entries j ∧
        valueAt map'.entries j = valueAt map.entries j := by
  obtain ⟨map', i, ids', hrun, hrep, hgrows, hids, hki, hvi, hold⟩ := h.put_reached hs load hnew value
  have hall : ∀ j, j ∈ ids' ↔ j ∈ ids := fun j => by
    rw [hids]
    exact ⟨And.left, fun hj => ⟨hj, fun hfull => h.slotAt_lt_uint32 (hfew hfull) hj⟩⟩
  obtain ⟨hi, hnd⟩ := List.nodup_cons.mp hrep.nodup
  refine ⟨map', i, hrun, hrep.congr_mem (List.nodup_cons.mpr ⟨fun hmem => hi ((hall i).mpr hmem), h.nodup⟩) fun j => ?_,
    hgrows, hki, hvi, fun j hj => hold j ((hall j).mpr hj)⟩
  rw [List.mem_cons, List.mem_cons, hall]

end PutNew

theorem freeLoop_spec {entries : Arena (HMapEntry ν)} {p : Option Nat}
    (h : Linked (linkAt entries) p ids none) {fuel : Nat} (hf : ids.length < fuel) :
    ∃ entries', freeLoop fuel entries p = some entries' ∧
      ∀ j, j ∉ ids → entries'.cells j = entries.cells j := by
  induction ids generalizing entries p fuel with
  | nil =>
    obtain _ | fuel := fuel
    · cases hf
    · rw [h.nil_eq]
      exact ⟨entries, rfl, fun _ _ => rfl⟩
  | cons i ids ih =>
    obtain _ | fuel := fuel
    · cases hf
    have hi := (List.nodup_cons.mp h.nodup).1
    obtain ⟨rfl, p', hp', h'⟩ := h.cons_inv
    obtain ⟨entry, he, rfl⟩ := exists_of_linkAt hp'
    have hcells : ∀ j, j ≠ i → (entries.erase i).cells j = entries.cells j := fun j hj =>
      Arena.erase_cells_ne hj
    obtain ⟨entries', hrun, hrest⟩ := ih
      (h'.congr fun j hj => linkAt_congr (hcells j fun heq => hi (heq ▸ hj))) (Nat.lt_of_succ_lt_succ hf)
    refine ⟨entries', ?_, fun j hj => ?_⟩
    · rw [freeLoop, he]
      simpa [Arena.free_eq he] using hrun
    · rw [List.mem_cons, not_or] at hj
      exact (hrest j hj.2).trans (hcells j hj.1)

theorem foldlM_freeLoop {entries : Arena (HMapEntry ν)} {bs : List (Option Nat)} {chains : List (List Nat)}
    (h : List.Forall₂ (Linked (linkAt entries) · · none) bs chains) (hnd : chains.flatten.Nodup)
    {fuel : Nat} (hf : ∀ chain ∈ chains, chain.length < fuel) :
    ∃ entries', bs.foldlM (fun entries entry => freeLoop fuel entries entry) entries = some entries' := by
  induction bs generalizing entries chains with
  | nil => exact ⟨entries, rfl⟩
  | cons b bs ih =>
    obtain _ | ⟨hb, hbs⟩ := h
    rename_i chain chains
    rw [List.flatten_cons, List.nodup_append] at hnd
    obtain ⟨entries₁, hrun₁, hcells⟩ := freeLoop_spec hb (hf chain List.mem_cons_self)
    have hbs₁ : List.Forall₂ (Linked (linkAt entries₁) · · none) bs chains :=
      Linked.forall₂_congr hbs fun i hi => linkAt_congr (hcells i fun hc => hnd.2.2 i hc i hi rfl)
    obtain ⟨entries', hrun⟩ := ih hbs₁ hnd.2.1 fun c hc => hf c (List.mem_cons_of_mem _ hc)
    exact ⟨entries', by rw [List.foldlM_cons, hrun₁]; exact hrun⟩

theorem Rep.of_empty (hpos : map.buckets ≠ []) (hnone : ∀ b ∈ map.buckets, b = none) : Rep map [] := by
  refine ⟨List.nodup_nil, hpos, by simp, by simp, fun n b hb => ⟨[], ?_, by simp⟩⟩
  rw [hnone b (List.mem_of_getElem? hb)]
  exact .nil none

theorem Rep.clear (h : Rep map ids) (hfew : map.buckets.length < 2 ^ 32) :
    ∃ map', map.clear = some map' ∧ Rep map' [] ∧ map'.size = 0 := by
  obtain ⟨chains, hlinked, hperm, -⟩ := h.chains
  have hf : ∀ chain ∈ chains, chain.length < map.fuel := by
    intro chain hc
    obtain ⟨n, hn, rfl⟩ := List.getElem_of_mem hc
    exact length_lt_fuel ((List.forall₂_iff_get.mp hlinked).2 n (hlinked.length_eq ▸ hn) hn)
  obtain ⟨entries', hrun⟩ := foldlM_freeLoop hlinked (hperm.nodup_iff.mpr h.nodup) hf
  refine ⟨_, by rw [HMap.clear, guard, if_pos hfew, hrun]; rfl, .of_empty ?_ ?_, rfl⟩
  · simpa using h.buckets
  · simp

theorem Rep.new (load : Nat → Nat) : Rep (HMap.new load : HMap ν) [] :=
  .of_empty (by simp [HMap.new, defaultCapacity]) (by simp [HMap.new])

end Renameutils.HMap
