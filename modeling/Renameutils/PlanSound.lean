import Renameutils.ApplyInv
import Renameutils.PlanClass
import Mathlib.Data.List.Pairwise

/-!
# What a new plan says about its renames

The specs of `plan->ok` in qmv mode are the carried ones, which had an ok status before, those that
`topologic_sort` appended and the renames of the circular sets. `CarriedNames`, `CarriedFree` and
`CarriedOrder` say what the carried specs must satisfy for the new plan to have distinct destinations
(`Ordered.new_inj`), to be `Safe` and to be `Sorted`. A fresh list carries none.
-/

namespace Renameutils
open Chain

/-- The new names of the carried specs are not used again. -/
structure CarriedNames (W : List SpecId) (h : Heap) : Prop where
  inj : ∀ s ∈ W, ∀ t ∈ W, (h.status s).isOk = true → (h.status t).isOk = true →
    h.newName s = h.newName t → s = t
  fresh : ∀ s ∈ W, ∀ t ∈ W, (h.status s).isOk = true → h.status t = .unchecked →
    h.newName s ≠ h.newName t
  temp : ∀ s ∈ W, ∀ t ∈ W, h.status s = .circular → h.status t = .unchecked →
    ∀ n, h.newName s ≠ (h.oldName t).numbered n

/-- The carried specs that wait for no other have free destinations, and the links of `next_spec` lead
to a listed spec that moves to the old name. -/
structure CarriedFree {φ : Type} (fs : FileSys φ) (W : List SpecId) (h : Heap) : Prop where
  free : ∀ s ∈ W, (h.status s).isOk = true → h.prevSpec s = none → fs (h.newName s) = none
  next : ∀ f ∈ W, (h.status f).isOk = true ∨ h.status f = .unchecked → ∀ s, h.nextSpec f = some s →
    s ∈ W ∧ h.oldName f = h.newName s

/-- A carried spec waits only for a carried spec that is listed before it, and the unchecked specs wait
for none. -/
structure CarriedOrder (W : List SpecId) (h : Heap) : Prop where
  unchecked : ∀ s ∈ W, h.status s = .unchecked → h.prevSpec s = none
  carried : ∀ s ∈ W, (h.status s).isOk = true → ∀ p, h.prevSpec s = some p →
    (h.status p).isOk = true ∧ Before W p s ∧ h.nextSpec p = some s

/-- The carried specs and those that the scans leave unchecked have distinct new names. -/
theorem CarriedNames.active_inj {fileExists : CString → Bool} {W : List SpecId} {h : Heap}
    (names : CarriedNames W h) (hnd : W.Nodup) {v w : SpecId} (hv : v ∈ W) (hw : w ∈ W)
    (hav : (h.status v).isOk = true ∨ Unchecked (scanned fileExists W h).heap W v)
    (haw : (h.status w).isOk = true ∨ Unchecked (scanned fileExists W h).heap W w)
    (heq : h.newName v = h.newName w) : v = w := by
  rcases hav with hav | hav <;> rcases haw with haw | haw
  · exact names.inj v hv w hw hav haw heq
  · exact absurd heq (names.fresh v hv w hw hav ((unchecked_scanned_iff hnd).mp haw).2.1)
  · exact absurd heq.symm (names.fresh w hw v hv haw ((unchecked_scanned_iff hnd).mp hav).2.1)
  · refine (newDistinct_scanned fileExists W h).new_inj v w hav haw ?_
    rw [(scanned_only hnd).newName, heq]

namespace Ordered
variable {fileExists : CString → Bool} {W : List SpecId} {h : Heap} {st : PlanState} {cuts : List Cut}
  {ts : TopologicState} {T pending errs : List SpecId} {s : SpecId}

theorem fresh_eq (o : Ordered fileExists W h ts T pending cuts errs st) (hnd : W.Nodup) :
    ts.st.heap.fresh = h.fresh := by rw [o.topologic.base.fresh, (scanned_only hnd).fresh]

theorem oldName_eq (o : Ordered fileExists W h ts T pending cuts errs st) (hnd : W.Nodup)
    (hs : s < h.fresh) : st.heap.oldName s = h.oldName s := by
  rw [o.cross.oldName s (o.fresh_eq hnd ▸ hs), o.topologic.base.oldName, (scanned_only hnd).oldName]

theorem newName_eq (o : Ordered fileExists W h ts T pending cuts errs st) (hnd : W.Nodup)
    (hs : s < h.fresh) : st.heap.newName s = h.newName s := by
  rw [o.cross.newName s (o.fresh_eq hnd ▸ hs), o.topologic.base.newName, (scanned_only hnd).newName]

theorem ok_eq (o : Ordered fileExists W h ts T pending cuts errs st) (hnd : W.Nodup) :
    st.plan.ok = cuts.flatMap Cut.renames ++ ((W.filter fun s => (h.status s).isOk) ++ T) := by
  rw [o.cross.plan, o.topologic.base.plan, scanned_ok hnd]

theorem mem_ok_iff (o : Ordered fileExists W h ts T pending cuts errs st) (hnd : W.Nodup) :
    s ∈ st.plan.ok ↔ (s ∈ W ∧ (h.status s).isOk = true) ∨ s ∈ T ∨ ∃ c ∈ cuts, s ∈ c.renames := by
  rw [o.ok_eq hnd]
  simp only [List.mem_append, List.mem_flatMap, List.mem_filter]
  rw [or_comm, or_assoc]

theorem unchecked_T (o : Ordered fileExists W h ts T pending cuts errs st) (hnd : W.Nodup) (hs : s ∈ T) :
    s ∈ W ∧ h.status s = .unchecked := by
  have := (unchecked_scanned_iff hnd).mp (o.topologic.base.unchecked_of_mem hs)
  exact ⟨this.1, this.2.1⟩

theorem unchecked_members (o : Ordered fileExists W h ts T pending cuts errs st) (hnd : W.Nodup) {c : Cut}
    (hc : c ∈ cuts) (hs : s ∈ c.members) :
    Unchecked (scanned fileExists W h).heap W s ∧ s ∉ T ∧ s ∈ W ∧ h.status s = .unchecked := by
  have hu := o.cross.unchecked s (List.mem_append_right _ (List.mem_flatMap.mpr ⟨c, hc, hs⟩))
  have hp := o.unchecked_pending.mp hu
  have hun := o.topologic.base.unchecked_of_pending hp
  have := (unchecked_scanned_iff hnd).mp hun
  exact ⟨hun, o.topologic.base.notMem_of_pending hp, this.1, this.2.1⟩

theorem cut_unique (o : Ordered fileExists W h ts T pending cuts errs st) {c d : Cut} (hc : c ∈ cuts)
    (hd : d ∈ cuts) (hs : s ∈ c.members) (hs' : s ∈ d.members) : c = d := by
  by_contra hne
  have hnd := (List.nodup_append.mp o.cross.nodup).2.1
  have hsymm : Std.Symm (Function.onFun List.Disjoint Cut.members) := ⟨fun _ _ h => List.disjoint_symm h⟩
  exact (List.nodup_flatMap.mp hnd).2.forall hc hd hne hs hs'

theorem created_notMem (o : Ordered fileExists W h ts T pending cuts errs st) (hnd : W.Nodup)
    (hlt : ∀ s ∈ W, s < h.fresh) {c : Cut} (hc : c ∈ cuts) (hs : s ∈ c.created) : s ∉ W := fun hW =>
  (hlt s hW).not_ge (o.fresh_eq hnd ▸ (o.cross.created_bounds s (List.mem_flatMap.mpr ⟨c, hc, hs⟩)).1)

theorem carried_links (o : Ordered fileExists W h ts T pending cuts errs st)
    (D : Distinct fileExists (scanned fileExists W h).heap (Unchecked (scanned fileExists W h).heap W))
    (hnd : W.Nodup) (hlt : ∀ s ∈ W, s < h.fresh) (hs : s ∈ W) (hu : h.status s ≠ .unchecked) :
    st.heap.prevSpec s = h.prevSpec s ∧ st.heap.nextSpec s = h.nextSpec s := by
  have hT : s ∉ T := fun hT => hu (o.unchecked_T hnd hT).2
  have hlts : s < ts.st.heap.fresh := o.fresh_eq hnd ▸ hlt s hs
  have links := o.topologic.links D
  have hm : s ∉ cuts.flatMap Cut.members := by
    intro hm
    obtain ⟨c, hc, hm⟩ := List.mem_flatMap.mp hm
    exact hu (o.unchecked_members hnd hc hm).2.2.2
  constructor
  · rw [o.cross.prevSpec s hlts hm, links.prev_out s hT, (scanned_only hnd).prevSpec]
  · rw [o.cross.nextSpec s hlts fun hun => ?_]
    · rcases links.next_or s with hn | ⟨_, _, hsT, _⟩
      · rw [hn, (scanned_only hnd).nextSpec]
      · exact absurd hsT hT
    · exact hu ((unchecked_scanned_iff hnd).mp
        (o.topologic.base.unchecked_of_pending (o.unchecked_pending.mp hun))).2.1

theorem appended_links (o : Ordered fileExists W h ts T pending cuts errs st) (hnd : W.Nodup)
    (hlt : ∀ s ∈ W, s < h.fresh) (hs : s ∈ T) :
    st.heap.prevSpec s = ts.st.heap.prevSpec s ∧ st.heap.nextSpec s = ts.st.heap.nextSpec s := by
  obtain ⟨hW, _⟩ := o.unchecked_T hnd hs
  have hlts : s < ts.st.heap.fresh := o.fresh_eq hnd ▸ hlt s hW
  have hm : s ∉ cuts.flatMap Cut.members := by
    intro hm
    obtain ⟨c, hc, hm⟩ := List.mem_flatMap.mp hm
    exact (o.unchecked_members hnd hc hm).2.1 hs
  refine ⟨o.cross.prevSpec s hlts hm, o.cross.nextSpec s hlts fun hun => ?_⟩
  exact o.topologic.base.notMem_of_pending (o.unchecked_pending.mp hun) hs

/-! ### Distinct destinations -/

theorem newName_cases (o : Ordered fileExists W h ts T pending cuts errs st) (hnd : W.Nodup)
    (hlt : ∀ s ∈ W, s < h.fresh) {x : SpecId} (hx : x ∈ st.plan.ok) :
    (∃ w ∈ W, st.heap.newName x = h.newName w ∧
      ((h.status w).isOk = true ∨ Unchecked (scanned fileExists W h).heap W w) ∧
      ((x = w ∧ w ∉ cuts.map Cut.member) ∨ ∃ c ∈ cuts, x = c.copy ∧ w = c.member)) ∨
    ∃ c ∈ cuts, x = c.tmp := by
  have hself : ∀ w ∈ W, ((h.status w).isOk = true ∨ Unchecked (scanned fileExists W h).heap W w) →
      w ∉ cuts.map Cut.member → (∃ w' ∈ W, st.heap.newName w = h.newName w' ∧
      ((h.status w').isOk = true ∨ Unchecked (scanned fileExists W h).heap W w') ∧
      ((w = w' ∧ w' ∉ cuts.map Cut.member) ∨ ∃ c ∈ cuts, w = c.copy ∧ w' = c.member)) :=
    fun w hw ha hm => ⟨w, hw, o.newName_eq hnd (hlt w hw), ha, .inl ⟨rfl, hm⟩⟩
  have hmember : ∀ w, w ∈ cuts.map Cut.member → h.status w = .unchecked ∧ w ∉ T := by
    intro w hw
    obtain ⟨c, hc, rfl⟩ := List.mem_map.mp hw
    obtain ⟨_, h2, _, h4⟩ := o.unchecked_members hnd hc List.mem_cons_self
    exact ⟨h4, h2⟩
  rcases (o.mem_ok_iff hnd).mp hx with ⟨hW, hok⟩ | hT | ⟨c, hc, hr⟩
  · refine .inl (hself x hW (.inl hok) fun hm => ?_)
    rw [(hmember x hm).1] at hok; cases hok
  · exact .inl (hself x (o.unchecked_T hnd hT).1 (.inr (o.topologic.base.unchecked_of_mem hT))
      fun hm => (hmember x hm).2 hT)
  · rcases Cut.mem_renames.mp hr with rfl | hr | rfl
    · exact .inr ⟨c, hc, rfl⟩
    · obtain ⟨h1, _, h3, _⟩ := o.unchecked_members hnd hc (List.mem_cons_of_mem _ hr)
      exact .inl (hself x h3 (.inr h1)
        (o.cross.notMem_member_of_ring (List.mem_flatMap.mpr ⟨c, hc, hr⟩)))
    · obtain ⟨h1, _, h3, _⟩ := o.unchecked_members hnd hc List.mem_cons_self
      have hnew := (o.cross.cut c hc).newName_copy
      rw [o.topologic.base.newName, (scanned_only hnd).newName] at hnew
      exact .inl ⟨c.member, h3, hnew, .inr h1, .inr ⟨c, hc, rfl, rfl⟩⟩

theorem tmpName_ne (o : Ordered fileExists W h ts T pending cuts errs st) (hnd : W.Nodup)
    (names : CarriedNames W h) {c : Cut} (hc : c ∈ cuts) {w : SpecId}
    (hw : w ∈ W) (ha : (h.status w).isOk = true ∨ Unchecked (scanned fileExists W h).heap W w) :
    c.tmpName ≠ h.newName w := by
  intro heq
  have base := o.topologic.base
  have hnew := (o.cross.cut c hc).tmpName_new
  have hno : ∀ x, ¬ (ts.st.heap.status w = x ∧ (x = .unchecked ∨ x = .apply)) := by
    rintro x ⟨hst, hx⟩
    refine Bool.eq_false_iff.mp hnew (newNameMap_contains.mpr ⟨w, hw, hst ▸ hx, ?_⟩)
    rw [base.newName, (scanned_only hnd).newName, heq]
  rcases ha with hok | hun
  · have hst : ts.st.heap.status w = h.status w := by
      have hu : h.status w ≠ .unchecked := by intro hu; rw [hu] at hok; cases hok
      rw [base.status, if_neg fun hT => hu (o.unchecked_T hnd hT).2, scanned_status hnd,
        if_neg fun h => hu h.2]
    cases hx : h.status w with
    | circular =>
      obtain ⟨n, hn⟩ := (o.cross.cut c hc).tmpName_numbered
      rw [base.oldName, (scanned_only hnd).oldName] at hn
      obtain ⟨_, _, h3, h4⟩ := o.unchecked_members hnd hc List.mem_cons_self
      exact names.temp w hw c.member h3 hx h4 n (heq.symm.trans hn)
    | apply => exact hno _ ⟨hst.trans hx, .inr rfl⟩
    | _ => rw [hx] at hok; cases hok
  · rcases List.mem_append.mp ((base.mem_iff w).mpr hun) with hT | hp
    · exact hno .apply ⟨by rw [base.status, if_pos hT], .inr rfl⟩
    · exact hno _ ⟨(o.unchecked_pending.mpr hp).2, .inl rfl⟩

theorem new_inj (o : Ordered fileExists W h ts T pending cuts errs st)
    (D : Distinct fileExists (scanned fileExists W h).heap (Unchecked (scanned fileExists W h).heap W))
    (hnd : W.Nodup) (hlt : ∀ s ∈ W, s < h.fresh) (names : CarriedNames W h) :
    ∀ s ∈ st.plan.ok, ∀ t ∈ st.plan.ok, st.heap.newName s = st.heap.newName t → s = t := by
  intro s hs t ht heq
  rcases o.newName_cases hnd hlt hs with ⟨v, hv, hsv, hav, hs'⟩ | ⟨c, hc, rfl⟩ <;>
    rcases o.newName_cases hnd hlt ht with ⟨w, hw, htw, haw, ht'⟩ | ⟨d, hd, rfl⟩
  · rw [hsv, htw] at heq
    obtain rfl := names.active_inj hnd hv hw hav haw heq
    rcases hs' with ⟨rfl, hs'⟩ | ⟨c, hc, rfl, rfl⟩ <;> rcases ht' with ⟨rfl, ht'⟩ | ⟨d, hd, rfl, hm⟩
    · rfl
    · exact absurd (hm ▸ List.mem_map_of_mem hd) hs'
    · exact absurd (List.mem_map_of_mem hc) ht'
    · rw [o.cut_unique hc hd (s := c.member) List.mem_cons_self (hm ▸ List.mem_cons_self)]
  · rw [hsv, (o.cross.cut d hd).newName_tmp] at heq
    exact absurd heq.symm (o.tmpName_ne hnd names hd hv hav)
  · rw [htw, (o.cross.cut c hc).newName_tmp] at heq
    exact absurd heq (o.tmpName_ne hnd names hc hw haw)
  · rw [(o.cross.cut c hc).newName_tmp, (o.cross.cut d hd).newName_tmp] at heq
    obtain ⟨n, hn⟩ := (o.cross.cut c hc).tmpName_numbered
    obtain ⟨m, hm⟩ := (o.cross.cut d hd).tmpName_numbered
    rw [hn, hm, o.topologic.base.oldName] at heq
    have hmem := D.old_inj c.member d.member (o.unchecked_members hnd hc List.mem_cons_self).1
      (o.unchecked_members hnd hd List.mem_cons_self).1 (CString.numbered_inj heq).1
    rw [o.cut_unique hc hd (s := c.member) List.mem_cons_self (hmem ▸ List.mem_cons_self)]

/-! ### Free destinations and order -/

/-- What `prev_spec` says of the renames of a circular set. -/
theorem prev_renames (o : Ordered fileExists W h ts T pending cuts errs st) {c : Cut} (hc : c ∈ cuts)
    (hs : s ∈ c.renames) : s = c.tmp ∨ ∃ p, Before c.renames p s ∧ Linked st.heap p s := by
  rcases List.mem_cons.mp hs with rfl | hs
  · exact .inl rfl
  · exact .inr ((o.cross.cut c hc).linked.before hs)

theorem prev_appended (o : Ordered fileExists W h ts T pending cuts errs st)
    (D : Distinct fileExists (scanned fileExists W h).heap (Unchecked (scanned fileExists W h).heap W))
    (hnd : W.Nodup) (hlt : ∀ s ∈ W, s < h.fresh) (hs : s ∈ T) :
    (fileExists (h.newName s) = false ∧ st.heap.prevSpec s = h.prevSpec s) ∨
      ∃ d, Before T d s ∧ Linked st.heap d s := by
  obtain ⟨hprev, _⟩ := o.appended_links hnd hlt hs
  rcases (o.topologic.links D).free_or s hs with ⟨hf, hp⟩ | ⟨_, d, hb, hp, hn, _⟩
  · rw [(scanned_only hnd).newName] at hf
    exact .inl ⟨hf, by rw [hprev, hp, (scanned_only hnd).prevSpec]⟩
  · exact .inr ⟨d, hb, by rw [(o.appended_links hnd hlt hb.mem_left).2, hn], hprev.trans hp⟩

/-- A link of `next_spec` that the plan made leads to the spec that moves to the old name. -/
theorem next_eq (o : Ordered fileExists W h ts T pending cuts errs st)
    (D : Distinct fileExists (scanned fileExists W h).heap (Unchecked (scanned fileExists W h).heap W))
    (hnd : W.Nodup) (hlt : ∀ s ∈ W, s < h.fresh) {f : SpecId} (hf : f ∈ st.plan.ok)
    (hn : st.heap.nextSpec f = some s) :
    (f ∈ W ∧ ((h.status f).isOk = true ∨ h.status f = .unchecked) ∧ h.nextSpec f = some s) ∨
      (st.heap.oldName f = st.heap.newName s ∧ s ∈ st.plan.ok ∧ st.heap.prevSpec s = some f) := by
  rcases (o.mem_ok_iff hnd).mp hf with ⟨hW, hok⟩ | hT | ⟨c, hc, hr⟩
  · have hu : h.status f ≠ .unchecked := by intro hu; rw [hu] at hok; cases hok
    exact .inl ⟨hW, .inl hok, (o.carried_links D hnd hlt hW hu).2 ▸ hn⟩
  · rw [(o.appended_links hnd hlt hT).2] at hn
    rcases (o.topologic.links D).next_or f with hn' | ⟨t, hn', _, ht, hp, hname⟩
    · rw [hn', (scanned_only hnd).nextSpec] at hn
      exact .inl ⟨(o.unchecked_T hnd hT).1, .inr (o.unchecked_T hnd hT).2, hn⟩
    · rw [hn] at hn'
      cases hn'
      refine .inr ⟨?_, (o.mem_ok_iff hnd).mpr (.inr (.inl ht)), (o.appended_links hnd hlt ht).1.trans hp⟩
      rw [o.oldName_eq hnd (hlt f (o.unchecked_T hnd hT).1), o.newName_eq hnd (hlt s (o.unchecked_T hnd ht).1)]
      rwa [(scanned_only hnd).oldName, (scanned_only hnd).newName] at hname
  · have m := o.cross.cut c hc
    rcases (m.linked.and m.named).exists_succ hr with rfl | ⟨t, ht, hl, hname⟩
    · rw [m.next_copy] at hn; cases hn
    · have hts : t = s := by rw [hl.1] at hn; exact Option.some.inj hn
      subst hts
      exact .inr ⟨hname, (o.mem_ok_iff hnd).mpr (.inr (.inr ⟨c, hc, List.mem_cons_of_mem _ ht⟩)), hl.2⟩

theorem safe {φ : Type} {fs : FileSys φ} (o : Ordered fs.contains W h ts T pending cuts errs st)
    (D : Distinct fs.contains (scanned fs.contains W h).heap (Unchecked (scanned fs.contains W h).heap W))
    (hnd : W.Nodup) (hlt : ∀ s ∈ W, s < h.fresh) (names : CarriedNames W h) (free : CarriedFree fs W h) :
    Safe fs st.heap st.plan.ok where
  nodup := (o.filed hnd hlt).ok_nodup
  new_inj := o.new_inj D hnd hlt names
  free s hs hp := by
    rcases (o.mem_ok_iff hnd).mp hs with ⟨hW, hok⟩ | hT | ⟨c, hc, hr⟩
    · have hu : h.status s ≠ .unchecked := by intro hu; rw [hu] at hok; cases hok
      rw [(o.carried_links D hnd hlt hW hu).1] at hp
      rw [o.newName_eq hnd (hlt s hW)]
      exact free.free s hW hok hp
    · rcases o.prev_appended D hnd hlt hT with ⟨hf, _⟩ | ⟨d, _, hl⟩
      · rw [o.newName_eq hnd (hlt s (o.unchecked_T hnd hT).1)]
        simpa [Table.contains] using hf
      · rw [hl.2] at hp; cases hp
    · rcases o.prev_renames hc hr with rfl | ⟨p, _, hl⟩
      · rw [(o.cross.cut c hc).newName_tmp]
        simpa [Table.contains] using (o.cross.cut c hc).tmpName_free
      · rw [hl.2] at hp; cases hp
  next f hf s hs hn := by
    refine .inr ?_
    rcases o.next_eq D hnd hlt hf hn with ⟨hW, ha, hn⟩ | ⟨heq, _⟩
    · obtain ⟨hsW, heq⟩ := free.next f hW ha s hn
      rwa [o.oldName_eq hnd (hlt f hW), o.newName_eq hnd (hlt s hsW)]
    · exact heq

theorem sorted (o : Ordered fileExists W h ts T pending cuts errs st)
    (D : Distinct fileExists (scanned fileExists W h).heap (Unchecked (scanned fileExists W h).heap W))
    (hnd : W.Nodup) (hlt : ∀ s ∈ W, s < h.fresh) (order : CarriedOrder W h) :
    Sorted st.heap st.plan.ok where
  nodup := (o.filed hnd hlt).ok_nodup
  status s hs := (o.filed hnd hlt).isOk_of_mem hs
  prev s hs p hp := by
    rcases (o.mem_ok_iff hnd).mp hs with ⟨hW, hok⟩ | hT | ⟨c, hc, hr⟩
    · have hu : ∀ t, (h.status t).isOk = true → h.status t ≠ .unchecked := by
        intro t hok hu; rw [hu] at hok; cases hok
      rw [(o.carried_links D hnd hlt hW (hu s hok)).1] at hp
      obtain ⟨hokp, hb, hn⟩ := order.carried s hW hok p hp
      rw [(o.carried_links D hnd hlt hb.mem_left (hu p hokp)).2, o.ok_eq hnd]
      exact ⟨((hb.filter hokp hok).append_right _).append_left _, hn⟩
    · rcases o.prev_appended D hnd hlt hT with ⟨_, hnone⟩ | ⟨d, hb, hl⟩
      · rw [order.unchecked s (o.unchecked_T hnd hT).1 (o.unchecked_T hnd hT).2] at hnone
        rw [hnone] at hp; cases hp
      · rw [hl.2] at hp
        cases hp
        rw [o.ok_eq hnd]
        exact ⟨(hb.append_left _).append_left _, hl.1⟩
    · rcases o.prev_renames hc hr with rfl | ⟨q, hb, hl⟩
      · rw [(o.cross.cut c hc).prev_tmp] at hp; cases hp
      · rw [hl.2] at hp
        cases hp
        rw [o.ok_eq hnd]
        exact ⟨(hb.flatMap hc).append_right _, hl.1⟩

end Ordered

/-! ### Fresh lists -/

section
variable {W : List SpecId} {h : Heap} (hun : ∀ s ∈ W, h.status s = .unchecked)
include hun

theorem carriedNames_fresh : CarriedNames W h where
  inj s hs _ _ hok := by rw [hun s hs] at hok; cases hok
  fresh s hs _ _ hok := by rw [hun s hs] at hok; cases hok
  temp s hs _ _ hc := by rw [hun s hs] at hc; cases hc

theorem carriedFree_fresh {φ : Type} (fs : FileSys φ) (hnext : ∀ s ∈ W, h.nextSpec s = none) :
    CarriedFree fs W h where
  free s hs hok := by rw [hun s hs] at hok; cases hok
  next f hf _ s hn := by rw [hnext f hf] at hn; cases hn

theorem carriedOrder_fresh (hprev : ∀ s ∈ W, h.prevSpec s = none) : CarriedOrder W h where
  unchecked s hs _ := hprev s hs
  carried s hs hok := by rw [hun s hs] at hok; cases hok

end

end Renameutils
