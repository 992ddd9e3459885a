import Renameutils.PlanSound

/-!
# What every plan keeps

Facts about `make_plan` in all program modes: it leaves the names of the specs that exist
(`makePlan_frame`), the new names in `plan->ok` are distinct if those of the carried specs are
(`makePlan_new_inj`), and the links of the specs stay among the specs of the list and those of the plan
(`makePlan_linksClosed`).
-/

namespace Renameutils
open Chain

/-- The links of the specs in `L` lead to specs in `L`, which are linked back. -/
structure LinksClosed (h : Heap) (L : SpecId → Prop) : Prop where
  prev : ∀ t u, L t → h.prevSpec t = some u → L u ∧ h.nextSpec u = some t
  next : ∀ t u, L t → h.nextSpec t = some u → L u ∧ h.prevSpec u = some t

/-- The unchecked specs of `W` have no links, and the links of the others stay in `W`. -/
structure CarriedLinks (W : List SpecId) (h : Heap) : Prop where
  unchecked : ∀ s ∈ W, h.status s = .unchecked → h.prevSpec s = none ∧ h.nextSpec s = none
  prev : ∀ s ∈ W, ∀ u, h.prevSpec s = some u → u ∈ W
  next : ∀ s ∈ W, ∀ u, h.nextSpec s = some u → u ∈ W

/-- `h'` differs from `h` in the statuses of unchecked specs of `W`. -/
structure Marked (W : List SpecId) (h h' : Heap) : Prop where
  only : StatusOnly h h'
  ok : ∀ s, (h'.status s).isOk = true → (h.status s).isOk = true ∨ Unchecked h W s
  unchecked : ∀ s, h'.status s = .unchecked → h.status s = .unchecked

namespace Marked
variable {W : List SpecId} {h h' : Heap} {s : SpecId}

theorem refl (W : List SpecId) (h : Heap) : Marked W h h := ⟨.refl h, fun _ => .inl, fun _ => id⟩

theorem setStatus (m : Marked W h h') (hs : s ∈ W) (hu : h'.status s = .unchecked) {x : FileSpecStatus}
    (hx : x ≠ .unchecked) : Marked W h (h'.setStatus s x) := by
  refine ⟨m.only.setStatus s x, fun t ht => ?_, fun t ht => ?_⟩
  · by_cases hts : t = s
    · exact hts ▸ .inr ⟨hs, m.unchecked s hu⟩
    · rw [Heap.status_setStatus_ne _ _ hts] at ht; exact m.ok t ht
  · rw [Heap.status_setStatus] at ht
    split at ht
    · exact absurd ht hx
    · exact m.unchecked t ht

end Marked

section
variable {fileExists : CString → Bool} {W : List SpecId} {h : Heap} {st : PlanState} {fuel : Nat}
  {program : Program}

theorem makePlan_marked (hp : program ≠ .qmv) (hm : makePlan fuel program fileExists W h = some st) :
    Marked W (scanned fileExists W h).heap st.heap := by
  have hadd : ∀ (add : PlanState → SpecId → PlanState) (x : FileSpecStatus), x ≠ .unchecked →
      (∀ st s, (add st s).heap = st.heap.setStatus s x) → ∀ (p : Heap → SpecId → Bool) st₁,
      Marked W (scanned fileExists W h).heap st₁.heap →
      Marked W (scanned fileExists W h).heap (statusScan p add W st₁).heap := by
    intro add x hx hadd p st₁ m
    refine statusScan_rule (I := fun st => Marked W (scanned fileExists W h).heap st.heap)
      (fun st s hs hu m => ?_) m
    rw [hadd]
    exact m.setStatus hs hu hx
  cases program with
  | qmv => exact absurd rfl hp
  | qcp =>
    obtain rfl : applyUnchecked W (newExistsScan fileExists W (scanned fileExists W h)) = st :=
      Option.some.inj hm
    exact hadd _ .apply (by decide) (fun _ _ => rfl) _ _ (hadd _ .newExists (by decide) (fun _ _ => rfl) _ _
      (hadd _ .newExists (by decide) (fun _ _ => rfl) _ _ (.refl _ _)))
  | other =>
    obtain rfl : applyUnchecked W (scanned fileExists W h) = st := Option.some.inj hm
    exact hadd _ .apply (by decide) (fun _ _ => rfl) _ _ (.refl _ _)

/-- `make_plan` creates specs and leaves the names of the others. -/
theorem makePlan_frame (hnd : W.Nodup) (hlt : ∀ s ∈ W, s < h.fresh)
    (hm : makePlan fuel program fileExists W h = some st) :
    h.fresh ≤ st.heap.fresh ∧ ∀ s < h.fresh, st.heap.oldName s = h.oldName s ∧
      st.heap.newName s = h.newName s := by
  by_cases hp : program = .qmv
  · obtain ⟨ts, T, pending, cuts, errs, o⟩ := makePlan_qmv hnd hlt (hp ▸ hm)
    exact ⟨o.fresh_eq hnd ▸ o.cross.fresh, fun s hs => ⟨o.oldName_eq hnd hs, o.newName_eq hnd hs⟩⟩
  · have only := (scanned_only hnd).trans (makePlan_marked hp hm).only
    exact ⟨only.fresh.ge, fun s _ => ⟨congrFun only.oldName s, congrFun only.newName s⟩⟩

theorem makePlan_freeSpec (hnd : W.Nodup) (hlt : ∀ s ∈ W, s < h.fresh) (hp : program ≠ .qmv)
    (hm : makePlan fuel program fileExists W h = some st) : st.plan.freeSpec = [] := by
  obtain ⟨cuts, hcuts, f, e⟩ := makePlan_filed hnd hlt hm
  refine List.eq_nil_iff_forall_not_mem.mpr fun s hs => ?_
  have hcount := e.count_created s (f.created s hs).1
  rw [hcuts hp, List.flatMap_nil, if_neg List.not_mem_nil, List.count_eq_zero] at hcount
  exact hcount (List.mem_append_left _ (List.mem_append_left _ ((f.ok_iff s).mpr (.inr hs))))

/-- The plan has distinct destinations if the new names of the carried specs are not used again. -/
theorem makePlan_new_inj (hnd : W.Nodup) (hlt : ∀ s ∈ W, s < h.fresh)
    (hold : ∀ s ∈ W, ∀ t ∈ W, h.oldName s = h.oldName t → s = t) (names : CarriedNames W h)
    (hm : makePlan fuel program fileExists W h = some st) : (st.plan.ok.map st.heap.newName).Nodup := by
  obtain ⟨_, _, f, _⟩ := makePlan_filed hnd hlt hm
  refine List.Nodup.map_on (fun s hs t ht heq => ?_) f.ok_nodup
  by_cases hp : program = .qmv
  · obtain ⟨ts, T, pending, cuts, errs, o⟩ := makePlan_qmv hnd hlt (hp ▸ hm)
    exact o.new_inj (distinct_scanned hnd hold) hnd hlt names s hs t ht heq
  · have m := makePlan_marked hp hm
    have hactive : ∀ s ∈ st.plan.ok, s ∈ W ∧
        ((h.status s).isOk = true ∨ Unchecked (scanned fileExists W h).heap W s) := by
      intro s hs
      rw [f.ok_iff, makePlan_freeSpec hnd hlt hp hm] at hs
      obtain ⟨hW, _, hok⟩ := hs.resolve_right List.not_mem_nil
      refine ⟨hW, (m.ok s hok).imp_left fun hok => ?_⟩
      rw [scanned_status hnd] at hok
      split at hok
      · split at hok
        · cases hok
        · split at hok
          · cases hok
          · split at hok <;> cases hok
      · exact hok
    obtain ⟨hsW, has⟩ := hactive s hs
    obtain ⟨htW, hat⟩ := hactive t ht
    refine names.active_inj hnd hsW htW has hat ?_
    rw [m.only.newName, (scanned_only hnd).newName] at heq
    exact heq

end

/-! ### Links -/

namespace Ordered
variable {fileExists : CString → Bool} {W : List SpecId} {h : Heap} {st : PlanState} {cuts : List Cut}
  {ts : TopologicState} {T pending errs : List SpecId} {s t : SpecId}

theorem freeSpec_eq (o : Ordered fileExists W h ts T pending cuts errs st) (hnd : W.Nodup) :
    st.plan.freeSpec = cuts.flatMap Cut.created := by
  rw [o.cross.plan, o.topologic.base.plan, scanned_freeSpec hnd, List.append_nil]

theorem spec_cases (o : Ordered fileExists W h ts T pending cuts errs st) (hnd : W.Nodup)
    (hs : s ∈ W ∨ s ∈ st.plan.freeSpec) :
    (s ∈ W ∧ h.status s ≠ .unchecked) ∨ s ∈ T ∨ (∃ c ∈ cuts, s ∈ c.renames) ∨
      (∃ c ∈ cuts, s = c.member) ∨
      (s ∈ W ∧ h.status s = .unchecked ∧ s ∉ T ∧ s ∉ cuts.flatMap Cut.members) := by
  rcases hs with hW | hf
  · by_cases hu : h.status s = .unchecked
    · by_cases hT : s ∈ T
      · exact .inr (.inl hT)
      by_cases hm : s ∈ cuts.flatMap Cut.members
      · obtain ⟨c, hc, hm⟩ := List.mem_flatMap.mp hm
        rcases List.mem_cons.mp hm with rfl | hr
        · exact .inr (.inr (.inr (.inl ⟨c, hc, rfl⟩)))
        · exact .inr (.inr (.inl ⟨c, hc, Cut.ring_mem_renames hr⟩))
      · exact .inr (.inr (.inr (.inr ⟨hW, hu, hT, hm⟩)))
    · exact .inl ⟨hW, hu⟩
  · rw [o.freeSpec_eq hnd] at hf
    obtain ⟨c, hc, hf⟩ := List.mem_flatMap.mp hf
    exact .inr (.inr (.inl ⟨c, hc, Cut.created_subset_renames hf⟩))

theorem linksClosed (o : Ordered fileExists W h ts T pending cuts errs st)
    (D : Distinct fileExists (scanned fileExists W h).heap (Unchecked (scanned fileExists W h).heap W))
    (hnd : W.Nodup) (hlt : ∀ s ∈ W, s < h.fresh) (closed : LinksClosed h (· ∈ W))
    (hun : ∀ s ∈ W, h.status s = .unchecked → h.prevSpec s = none ∧ h.nextSpec s = none) :
    LinksClosed st.heap fun t => t ∈ W ∨ t ∈ st.plan.freeSpec := by
  have hok : ∀ t ∈ st.plan.ok, t ∈ W ∨ t ∈ st.plan.freeSpec := fun t ht =>
    (((o.filed hnd hlt).ok_iff t).mp ht).imp_left fun h => h.1
  have hren : ∀ c ∈ cuts, ∀ t ∈ c.renames, t ∈ st.plan.ok := fun c hc t ht =>
    (o.mem_ok_iff hnd).mpr (.inr (.inr ⟨c, hc, ht⟩))
  -- a link of a spec that was not unchecked leads to another such spec
  have hcarried : ∀ u t, u ∈ W → h.prevSpec u = some t ∨ h.nextSpec u = some t → h.status u ≠ .unchecked := by
    intro u t hu hl hst
    rw [(hun u hu hst).1, (hun u hu hst).2] at hl
    rcases hl with hl | hl <;> cases hl
  constructor
  · intro t u hL hp
    rcases o.spec_cases hnd hL with ⟨hW, hst⟩ | hT | ⟨c, hc, hr⟩ | ⟨c, hc, rfl⟩ | ⟨hW, hst, hT, hm⟩
    · rw [(o.carried_links D hnd hlt hW hst).1] at hp
      obtain ⟨huW, hn⟩ := closed.prev t u hW hp
      exact ⟨.inl huW, by rw [(o.carried_links D hnd hlt huW (hcarried u t huW (.inr hn))).2, hn]⟩
    · rcases o.prev_appended D hnd hlt hT with ⟨_, heq⟩ | ⟨d, hb, hl⟩
      · rw [heq, (hun t (o.unchecked_T hnd hT).1 (o.unchecked_T hnd hT).2).1] at hp; cases hp
      · rw [hl.2] at hp
        obtain rfl := Option.some.inj hp
        exact ⟨.inl (o.unchecked_T hnd hb.mem_left).1, hl.1⟩
    · rcases o.prev_renames hc hr with rfl | ⟨p, hb, hl⟩
      · rw [(o.cross.cut c hc).prev_tmp] at hp; cases hp
      · rw [hl.2] at hp
        obtain rfl := Option.some.inj hp
        exact ⟨hok p (hren c hc p hb.mem_left), hl.1⟩
    · rw [(o.cross.cut c hc).prev_member] at hp; cases hp
    · rw [o.cross.prevSpec t (o.fresh_eq hnd ▸ hlt t hW) hm, (o.topologic.links D).prev_out t hT,
        (scanned_only hnd).prevSpec, (hun t hW hst).1] at hp
      cases hp
  · intro t u hL hn
    have hplan : t ∈ st.plan.ok → (t ∈ W → h.status t = .unchecked) →
        (u ∈ W ∨ u ∈ st.plan.freeSpec) ∧ st.heap.prevSpec u = some t := by
      intro ht hst
      rcases o.next_eq D hnd hlt ht hn with ⟨hW, _, hn'⟩ | ⟨_, hu, hp⟩
      · rw [(hun t hW (hst hW)).2] at hn'; cases hn'
      · exact ⟨hok u hu, hp⟩
    rcases o.spec_cases hnd hL with ⟨hW, hst⟩ | hT | ⟨c, hc, hr⟩ | ⟨c, hc, rfl⟩ | ⟨hW, hst, hT, hm⟩
    · rw [(o.carried_links D hnd hlt hW hst).2] at hn
      obtain ⟨huW, hp⟩ := closed.next t u hW hn
      exact ⟨.inl huW, by rw [(o.carried_links D hnd hlt huW (hcarried u t huW (.inl hp))).1, hp]⟩
    · exact hplan ((o.mem_ok_iff hnd).mpr (.inr (.inl hT))) fun _ => (o.unchecked_T hnd hT).2
    · refine hplan (hren c hc t hr) fun hW => ?_
      rcases Cut.mem_renames.mp hr with rfl | hr | rfl
      · exact absurd hW (o.created_notMem hnd hlt hc c.tmp_mem_created)
      · exact (o.unchecked_members hnd hc (List.mem_cons_of_mem _ hr)).2.2.2
      · exact absurd hW (o.created_notMem hnd hlt hc c.copy_mem_created)
    · rw [(o.cross.cut c hc).next_member] at hn; cases hn
    · have hlts : t < ts.st.heap.fresh := o.fresh_eq hnd ▸ hlt t hW
      by_cases hts : Unchecked ts.st.heap W t
      · rcases List.mem_append.mp (o.cross.done t hts) with he | hm'
        · rw [(o.cross.err t he).2.1] at hn; cases hn
        · exact absurd hm' hm
      · rw [o.cross.nextSpec t hlts hts] at hn
        rcases (o.topologic.links D).next_or t with heq | ⟨_, _, hT', _⟩
        · rw [heq, (scanned_only hnd).nextSpec, (hun t hW hst).2] at hn; cases hn
        · exact absurd hT' hT

end Ordered

/-- The links of the listed specs and of those that the plan created stay among them. -/
theorem makePlan_linksClosed {fileExists : CString → Bool} {W : List SpecId} {h : Heap} {st : PlanState}
    {fuel : Nat} {program : Program} (hnd : W.Nodup) (hlt : ∀ s ∈ W, s < h.fresh)
    (hold : ∀ s ∈ W, ∀ t ∈ W, h.oldName s = h.oldName t → s = t) (closed : LinksClosed h (· ∈ W))
    (hun : ∀ s ∈ W, h.status s = .unchecked → h.prevSpec s = none ∧ h.nextSpec s = none)
    (hm : makePlan fuel program fileExists W h = some st) :
    LinksClosed st.heap fun t => t ∈ W ∨ t ∈ st.plan.freeSpec := by
  by_cases hp : program = .qmv
  · obtain ⟨ts, T, pending, cuts, errs, o⟩ := makePlan_qmv hnd hlt (hp ▸ hm)
    exact o.linksClosed (distinct_scanned hnd hold) hnd hlt closed hun
  · have only := (scanned_only hnd).trans (makePlan_marked hp hm).only
    have hfree : st.plan.freeSpec = [] := makePlan_freeSpec hnd hlt hp hm
    constructor
    · intro t u hL hp
      rw [only.prevSpec] at hp
      rw [only.nextSpec]
      exact (closed.prev t u (hL.resolve_right (by simp [hfree])) hp).imp_left .inl
    · intro t u hL hn
      rw [only.nextSpec] at hn
      rw [only.prevSpec]
      exact (closed.next t u (hL.resolve_right (by simp [hfree])) hn).imp_left .inl

end Renameutils
