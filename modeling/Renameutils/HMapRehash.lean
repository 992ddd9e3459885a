import Renameutils.HMapChains

/-!
# Rehashing

`hmap_rehash` takes the entries off their old chains one by one and puts each at the end of its new chain.
Keys and values stay, and in the end all entries are on the new chains.
-/

namespace Renameutils.HMap

variable {ν : Type} {map map' map'' : HMap ν} {entries : Arena (HMapEntry ν)} {entry : HMapEntry ν}
variable {i n index : Nat} {p : Option Nat} {ids ids' done chain : List Nat}

section Modify
variable {f : HMapEntry ν → HMapEntry ν}

theorem keyAt_modify (hf : ∀ e, (f e).key = e.key) (i : Nat) :
    keyAt (entries.modify i f) = keyAt entries := by
  funext j
  by_cases hj : j = i
  · subst hj
    rw [keyAt, keyAt, Arena.modify_cells_self, Option.map_map]
    exact congrArg (Option.map · _) (funext hf)
  · exact keyAt_congr (Arena.modify_cells_ne f hj)

theorem valueAt_modify (hf : ∀ e, (f e).value = e.value) (i : Nat) :
    valueAt (entries.modify i f) = valueAt entries := by
  funext j
  by_cases hj : j = i
  · subst hj
    rw [valueAt, valueAt, Arena.modify_cells_self, Option.map_map]
    exact congrArg (Option.map · _) (funext hf)
  · exact congrArg (Option.map _) (Arena.modify_cells_ne f hj)

theorem linkAt_modify (hf : ∀ e, (f e).next = e.next) (i : Nat) :
    linkAt (entries.modify i f) = linkAt entries := by
  funext j
  by_cases hj : j = i
  · subst hj
    rw [linkAt, linkAt, Arena.modify_cells_self, Option.map_map]
    exact congrArg (Option.map · _) (funext hf)
  · exact linkAt_congr (Arena.modify_cells_ne f hj)

theorem linkAt_setNext (he : entries.cells i = some entry) :
    linkAt (entries.modify i fun e => { e with next := p }) i = some p := by
  rw [linkAt, Arena.modify_cells_self, he]; rfl

theorem linkAt_setNext_ne {j : Nat} (hj : j ≠ i) :
    linkAt (entries.modify i fun e => { e with next := p }) j = linkAt entries j :=
  linkAt_congr (Arena.modify_cells_ne _ hj)

end Modify

/-- The chain of one bucket has changed, and those of the other buckets have not. -/
theorem Chained.update (hch : Chained map ids) (map' : HMap ν) (index : Nat)
    (hself : ∀ b, map'.buckets[index]? = some b → ∃ chain, Linked (linkAt map'.entries) b chain none ∧
      ∀ j, j ∈ chain ↔ j ∈ ids' ∧ map'.slotAt j = some index)
    (hbuckets : ∀ n, n ≠ index → map'.buckets[n]? = map.buckets[n]?)
    (hmem : ∀ n, n ≠ index → ∀ j, (j ∈ ids' ∧ map'.slotAt j = some n) ↔ (j ∈ ids ∧ map.slotAt j = some n))
    (hlink : ∀ j ∈ ids, map.slotAt j ≠ some index → linkAt map'.entries j = linkAt map.entries j) :
    Chained map' ids' := by
  intro n b hb
  by_cases hn : n = index
  · subst hn; exact hself b hb
  · rw [hbuckets n hn] at hb
    obtain ⟨chain, hlinked, hchain⟩ := hch n b hb
    refine ⟨chain, hlinked.congr fun j hj => ?_, fun j => (hchain j).trans (hmem n hn j).symm⟩
    obtain ⟨hj, hslot⟩ := (hchain j).mp hj
    exact hlink j hj (by rw [hslot]; exact fun h => hn (Option.some.inj h))

/-- What moving entries between chains leaves alone. -/
structure Kept (map map' : HMap ν) : Prop where
  keys : keyAt map'.entries = keyAt map.entries
  values : valueAt map'.entries = valueAt map.entries
  fresh : map'.entries.fresh = map.entries.fresh
  buckets : map'.buckets.length = map.buckets.length
  threshold : map'.threshold = map.threshold
  size : map'.size = map.size

namespace Kept

theorem refl (map : HMap ν) : Kept map map := ⟨rfl, rfl, rfl, rfl, rfl, rfl⟩

theorem trans (h : Kept map map') (h' : Kept map' map'') : Kept map map'' :=
  ⟨h'.keys.trans h.keys, h'.values.trans h.values, h'.fresh.trans h.fresh, h'.buckets.trans h.buckets,
    h'.threshold.trans h.threshold, h'.size.trans h.size⟩

theorem slotAt (h : Kept map map') (i : Nat) : map'.slotAt i = map.slotAt i :=
  slotAt_congr h.buckets (congrFun h.keys i)

theorem ne_nil (h : Kept map map') (hpos : map.buckets ≠ []) : map'.buckets ≠ [] := by
  rw [← List.length_pos_iff] at hpos ⊢
  rw [h.buckets]; exact hpos

end Kept

/-- `relink`, with the two cases of an empty and of a non-empty new bucket. -/
theorem relink_eq (hch : Chained map done) (hpos : map.buckets ≠ []) (hi : i ∉ done)
    (he : map.entries.cells i = some entry) :
    ∃ map' chain p', map.relink i = some (map', entry.next) ∧ Kept map map' ∧
      (∀ n, n ≠ map.hash entry.key → map'.buckets[n]? = map.buckets[n]?) ∧
      map'.buckets[map.hash entry.key]? = some p' ∧ Linked (linkAt map'.entries) p' (chain ++ [i]) none ∧
      (∀ j, j ∈ chain ↔ j ∈ done ∧ map.slotAt j = some (map.hash entry.key)) ∧
      ∀ j, j ≠ i → j ∉ chain → linkAt map'.entries j = linkAt map.entries j := by
  have hlt := hash_lt hpos entry.key
  generalize hindex : map.hash entry.key = index at hlt ⊢
  have hget := List.getElem?_eq_getElem hlt
  obtain ⟨chain, hlinked, hchain⟩ := hch index _ hget
  have hichain : i ∉ chain := fun h => hi ((hchain i).mp h).1
  cases hdest : map.buckets[index] with
  | none =>
    rw [hdest] at hget hlinked
    obtain ⟨rfl, -⟩ := hlinked.of_none
    let f : HMapEntry ν → HMapEntry ν := fun e => { e with next := none }
    let map' : HMap ν :=
      { map with buckets := map.buckets.set index (some i), entries := map.entries.modify i f }
    have hkept : Kept map map' := ⟨keyAt_modify (f := f) (fun _ => rfl) i,
      valueAt_modify (f := f) (fun _ => rfl) i, rfl, List.length_set .., rfl, rfl⟩
    refine ⟨map', [], some i, ?_, hkept, ?_, ?_, ?_, hchain, ?_⟩
    · simp [relink, he, hindex, hget, Arena.write_eq _ he, map', f]
    · exact fun n hn => List.getElem?_set_ne (Ne.symm hn)
    · exact List.getElem?_set_self hlt
    · exact .cons (linkAt_setNext he) (.nil none)
    · exact fun j hj _ => linkAt_setNext_ne hj
  | some dest =>
    rw [hdest] at hget hlinked
    obtain ⟨init, last, rfl⟩ : ∃ init last, chain = init ++ [last] := by
      obtain ⟨ids, p', rfl, -, -⟩ := hlinked.of_some
      exact ⟨_, _, (List.dropLast_append_getLast (List.cons_ne_nil dest ids)).symm⟩
    have hne : i ≠ last := fun h => hichain (by simp [h])
    obtain ⟨e', he'⟩ : ∃ e', map.entries.cells last = some e' := by
      obtain ⟨q, hq⟩ := Option.isSome_iff_exists.mp (hlinked.isSome_of_mem (i := last) (by simp))
      obtain ⟨e', he', -⟩ := exists_of_linkAt hq
      exact ⟨e', he'⟩
    have hlast : map.lastLoop map.fuel dest = some last := by
      refine lastLoop_eq hlinked (Nat.lt_of_le_of_lt ?_ (length_lt_fuel hlinked))
      simp
    let f : HMapEntry ν → HMapEntry ν := fun e => { e with next := some i }
    let g : HMapEntry ν → HMapEntry ν := fun e => { e with next := none }
    have hei : (map.entries.modify last f).cells i = some entry := by rw [Arena.modify_cells_ne _ hne, he]
    let map' : HMap ν := { map with entries := (map.entries.modify last f).modify i g }
    have hkept : Kept map map' :=
      ⟨(keyAt_modify (f := g) (fun _ => rfl) i).trans (keyAt_modify (f := f) (fun _ => rfl) last),
        (valueAt_modify (f := g) (fun _ => rfl) i).trans (valueAt_modify (f := f) (fun _ => rfl) last),
        rfl, rfl, rfl, rfl⟩
    have hlink : ∀ j, j ≠ i → j ≠ last → linkAt map'.entries j = linkAt map.entries j := fun j hi hl =>
      (linkAt_setNext_ne hi).trans (linkAt_setNext_ne hl)
    refine ⟨map', init ++ [last], some dest, ?_, hkept, fun n _ => rfl, hget, ?_, hchain, ?_⟩
    · simp [relink, he, hindex, hget, hlast, Arena.write_eq _ he', hei, Arena.write_eq _ hei, map', f, g]
    · refine Linked.append (hlinked.relink (fun j hj => ?_) ?_) (.cons (linkAt_setNext hei) (.nil none))
      · refine hlink j (fun h => hichain (by simp [← h, hj])) fun h => ?_
        have := hlinked.nodup
        rw [List.nodup_append] at this
        exact this.2.2 j hj last (by simp) h
      · exact (linkAt_setNext_ne hne.symm).trans (linkAt_setNext he')
    · exact fun j hj hjc => hlink j hj fun h => hjc (by simp [h])

theorem relink_spec (hch : Chained map done) (hpos : map.buckets ≠ []) (hi : i ∉ done)
    (he : map.entries.cells i = some entry) :
    ∃ map', map.relink i = some (map', entry.next) ∧ Kept map map' ∧ Chained map' (i :: done) ∧
      ∀ j, j ∉ i :: done → linkAt map'.entries j = linkAt map.entries j := by
  obtain ⟨map', chain, p', hrun, hkept, hbuckets, hself, hlinked, hchain, hlink⟩ :=
    relink_eq hch hpos hi he
  have hslot : map'.slotAt i = some (map.hash entry.key) := by
    rw [hkept.slotAt]; exact slotAt_of_keyAt (keyAt_of_cells he)
  refine ⟨map', hrun, hkept, ?_, fun j hj => ?_⟩
  · refine hch.update map' _ (fun b hb => ⟨chain ++ [i], ?_, fun j => ?_⟩) hbuckets (fun n hn j => ?_)
      fun j hj hjs => hlink j (fun h => hi (h ▸ hj)) fun h => hjs ((hchain j).mp h).2
    · cases hself.symm.trans hb
      exact hlinked
    · rw [List.mem_append, hchain, List.mem_singleton, List.mem_cons, hkept.slotAt]
      constructor
      · rintro (⟨hj, hs⟩ | rfl)
        · exact ⟨.inr hj, hs⟩
        · exact ⟨.inl rfl, (hkept.slotAt j).symm.trans hslot⟩
      · rintro ⟨rfl | hj, hs⟩
        · exact .inr rfl
        · exact .inl ⟨hj, hs⟩
    · rw [List.mem_cons, hkept.slotAt]
      constructor
      · rintro ⟨rfl | hj, hs⟩
        · exact absurd (hs.symm.trans ((hkept.slotAt j).symm.trans hslot)) fun h => hn (Option.some.inj h)
        · exact ⟨hj, hs⟩
      · exact fun ⟨hj, hs⟩ => ⟨.inr hj, hs⟩
  · rw [List.mem_cons, not_or] at hj
    exact hlink j hj.1 fun h => hj.2 ((hchain j).mp h).1

theorem relinkLoop_spec (hch : Chained map done) (hpos : map.buckets ≠ [])
    (h : Linked (linkAt map.entries) p ids none) (hdis : ∀ i ∈ ids, i ∉ done) {fuel : Nat}
    (hf : ids.length < fuel) :
    ∃ map', relinkLoop fuel map p = some map' ∧ Kept map map' ∧ Chained map' (ids.reverse ++ done) ∧
      ∀ j, j ∉ ids → j ∉ done → linkAt map'.entries j = linkAt map.entries j := by
  induction ids generalizing map p done fuel with
  | nil =>
    obtain _ | fuel := fuel
    · cases hf
    · rw [h.nil_eq]
      exact ⟨map, rfl, .refl map, hch, fun _ _ _ => rfl⟩
  | cons i ids ih =>
    obtain _ | fuel := fuel
    · cases hf
    obtain ⟨rfl, p', hp', h'⟩ := h.cons_inv
    obtain ⟨entry, he, rfl⟩ := exists_of_linkAt hp'
    obtain ⟨map₁, hrun₁, hkept₁, hch₁, hlink₁⟩ := relink_spec hch hpos (hdis i List.mem_cons_self) he
    have hnd := List.nodup_cons.mp h.nodup
    have hdis₁ : ∀ j ∈ ids, j ∉ i :: done := by
      intro j hj hmem
      rcases List.mem_cons.mp hmem with rfl | hmem
      · exact hnd.1 hj
      · exact hdis j (List.mem_cons_of_mem _ hj) hmem
    obtain ⟨map₂, hrun₂, hkept₂, hch₂, hlink₂⟩ := ih hch₁ (hkept₁.ne_nil hpos)
      (h'.congr fun j hj => hlink₁ j (hdis₁ j hj)) hdis₁ (Nat.lt_of_succ_lt_succ hf)
    refine ⟨map₂, ?_, hkept₁.trans hkept₂, ?_, fun j hj hjd => ?_⟩
    · rw [relinkLoop, hrun₁]; exact hrun₂
    · rwa [List.reverse_cons, List.append_assoc]
    · rw [List.mem_cons, not_or] at hj
      have hjc : j ∉ i :: done := by simp [hj.1, hjd]
      exact (hlink₂ j hj.2 hjc).trans (hlink₁ j hjc)

theorem Chained.congr_mem (hch : Chained map ids) (h : ∀ i, i ∈ ids' ↔ i ∈ ids) : Chained map ids' := by
  intro n b hb
  obtain ⟨chain, hlinked, hchain⟩ := hch n b hb
  exact ⟨chain, hlinked, fun i => by rw [hchain, h]⟩

theorem foldlM_relinkLoop {bs : List (Option Nat)} {chains : List (List Nat)} (hch : Chained map done)
    (hpos : map.buckets ≠ []) (h : List.Forall₂ (Linked (linkAt map.entries) · · none) bs chains)
    (hnd : chains.flatten.Nodup) (hdis : ∀ i ∈ chains.flatten, i ∉ done) :
    ∃ map' done', bs.foldlM (fun map entry => map.relinkLoop map.fuel entry) map = some map' ∧
      Kept map map' ∧ Chained map' done' ∧ ∀ i, i ∈ done' ↔ i ∈ chains.flatten ∨ i ∈ done := by
  induction bs generalizing map chains done with
  | nil =>
    cases h
    exact ⟨map, done, rfl, .refl map, hch, by simp⟩
  | cons b bs ih =>
    obtain _ | ⟨hb, hbs⟩ := h
    rename_i chain chains
    rw [List.flatten_cons, List.nodup_append] at hnd
    obtain ⟨-, hnd, hne⟩ := hnd
    obtain ⟨map₁, hrun₁, hkept₁, hch₁, hlink₁⟩ := relinkLoop_spec hch hpos hb
      (fun i hi => hdis i (by simp [hi])) (length_lt_fuel hb)
    have hnotMem : ∀ i ∈ chains.flatten, i ∉ chain ∧ i ∉ done := fun i hi =>
      ⟨fun hc => hne i hc i hi rfl, hdis i (by rw [List.flatten_cons]; exact List.mem_append_right _ hi)⟩
    have hbs₁ := Linked.forall₂_congr hbs fun i hi => hlink₁ i (hnotMem i hi).1 (hnotMem i hi).2
    obtain ⟨map₂, done', hrun₂, hkept₂, hch₂, hdone⟩ := ih hch₁
      (hkept₁.ne_nil hpos) hbs₁ hnd fun i hi h => by
        rcases List.mem_append.mp h with h | h
        · exact (hnotMem i hi).1 (List.mem_reverse.mp h)
        · exact (hnotMem i hi).2 h
    refine ⟨map₂, done', ?_, hkept₁.trans hkept₂, hch₂, fun i => ?_⟩
    · rw [List.foldlM_cons, hrun₁]; exact hrun₂
    · rw [hdone, List.flatten_cons]
      simp only [List.mem_append, List.mem_reverse]
      tauto

end Renameutils.HMap
