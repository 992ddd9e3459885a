import Renameutils.PlanTerminates

/-!
# `make_plan`

The passes of `make_plan` put together. In qmv mode the plan is made by `topologic_sort` and
`cross_reference_resolve` alone (`makePlan_qmv`); in every mode the lists of the plan hold the specs as
`Filed` says (`makePlan_filed`).
-/

namespace Renameutils
open Chain
open scoped List

/-! ### Every spec is filed -/

namespace CrossInv
variable {fileExists : CString → Bool} {W done errs cut : List SpecId} {st₀ st : PlanState}
  {cuts : List Cut} {s : SpecId}

theorem status_of_mem_ring (inv : CrossInv fileExists W st₀ done st cuts errs)
    (hs : s ∈ cuts.flatMap Cut.ring) : st.heap.status s = .circular := by
  obtain ⟨c, hc, hs⟩ := List.mem_flatMap.mp hs
  exact (inv.cut c hc).status_renames s (Cut.ring_mem_renames hs)

theorem status_of_mem_member (inv : CrossInv fileExists W st₀ done st cuts errs)
    (hs : s ∈ cuts.map Cut.member) : st.heap.status s = .apply := by
  obtain ⟨c, hc, rfl⟩ := List.mem_map.mp hs
  exact (inv.cut c hc).status_member

theorem mem_members_iff : s ∈ cuts.flatMap Cut.members ↔
    s ∈ cuts.map Cut.member ∨ s ∈ cuts.flatMap Cut.ring := by
  simp only [List.mem_flatMap, List.mem_map, Cut.members, List.mem_cons]
  constructor
  · rintro ⟨c, hc, rfl | hs⟩
    · exact .inl ⟨c, hc, rfl⟩
    · exact .inr ⟨c, hc, hs⟩
  · rintro (⟨c, hc, rfl⟩ | ⟨c, hc, hs⟩)
    · exact ⟨c, hc, .inl rfl⟩
    · exact ⟨c, hc, .inr hs⟩

theorem perm_members (cuts : List Cut) :
    (cuts.flatMap Cut.members).Perm (cuts.map Cut.member ++ cuts.flatMap Cut.ring) := by
  induction cuts with
  | nil => exact .refl _
  | cons c cuts ih =>
    simp only [List.flatMap_cons, Cut.members, List.map_cons, List.cons_append]
    refine .cons _ ((ih.append_left c.ring).trans ?_)
    rw [← List.append_assoc, ← List.append_assoc]
    exact .append_right _ List.perm_append_comm

theorem perm_renames (cuts : List Cut) :
    (cuts.flatMap Cut.renames).Perm (cuts.flatMap Cut.created ++ cuts.flatMap Cut.ring) := by
  induction cuts with
  | nil => exact .refl _
  | cons c cuts ih =>
    simp only [List.flatMap_cons, Cut.renames, Cut.created, List.cons_append, List.nil_append]
    refine .cons _ ?_
    have h₁ : (c.ring.reverse ++ [c.copy]).Perm (c.copy :: c.ring) :=
      List.perm_append_comm.trans (.cons _ (List.reverse_perm _))
    calc (c.ring.reverse ++ [c.copy]) ++ cuts.flatMap Cut.renames
      _ ~ c.copy :: (c.ring ++ (cuts.flatMap Cut.created ++ cuts.flatMap Cut.ring)) := h₁.append ih
      _ ~ c.copy :: (cuts.flatMap Cut.created ++ (c.ring ++ cuts.flatMap Cut.ring)) := .cons _ (by
        rw [← List.append_assoc, ← List.append_assoc]
        exact .append_right _ List.perm_append_comm)

theorem notMem_member_of_ring (inv : CrossInv fileExists W st₀ done st cuts errs)
    (hs : s ∈ cuts.flatMap Cut.ring) : s ∉ cuts.map Cut.member := fun hm =>
  (List.nodup_append.mp ((perm_members cuts).nodup_iff.mp
    (List.nodup_append.mp inv.nodup).2.1)).2.2 s hm s hs rfl

theorem status_of_ne (inv : CrossInv fileExists W st₀ done st cuts errs) (hs : s < st₀.heap.fresh)
    (hu : st₀.heap.status s ≠ .unchecked) : st.heap.status s = st₀.heap.status s :=
  inv.status s hs fun hm => hu (inv.unchecked s hm).2

/-- A spec is in the new errors, renamed twice, in the rest of a circular set, or keeps its status. -/
theorem status_cases (inv : CrossInv fileExists W st₀ done st cuts errs) (hs : s < st₀.heap.fresh) :
    s ∈ errs ∧ st.heap.status s = .newExists ∨ s ∈ cuts.map Cut.member ∧ st.heap.status s = .apply ∨
      s ∈ cuts.flatMap Cut.ring ∧ st.heap.status s = .circular ∨ st.heap.status s = st₀.heap.status s := by
  by_cases hmem : s ∈ errs ++ cuts.flatMap Cut.members
  · rcases List.mem_append.mp hmem with he | hm
    · exact .inl ⟨he, (inv.err s he).1⟩
    · rcases mem_members_iff.mp hm with hm | hr
      · exact .inr (.inl ⟨hm, inv.status_of_mem_member hm⟩)
      · exact .inr (.inr (.inl ⟨hr, inv.status_of_mem_ring hr⟩))
  · exact .inr (.inr (.inr (inv.status s hs hmem)))

theorem filed (inv : CrossInv fileExists W st₀ done st cuts errs) (h : Filed W [] st₀) :
    Filed W (cuts.map Cut.member) st where
  ok_iff s := by
    simp only [inv.plan, List.mem_append, h.ok_iff, List.not_mem_nil, not_false_eq_true, true_and,
      (perm_renames cuts).mem_iff]
    constructor
    · rintro ((hc | hr) | ⟨hW, hok⟩ | hf)
      · exact .inr (.inl hc)
      · refine .inl ⟨?_, inv.notMem_member_of_ring hr, by rw [inv.status_of_mem_ring hr]; rfl⟩
        exact (inv.unchecked s (List.mem_append_right _ (mem_members_iff.mpr (.inr hr)))).1
      · have hu : st₀.heap.status s ≠ .unchecked := by intro hu; rw [hu] at hok; cases hok
        refine .inl ⟨hW, fun hm => hu ?_, by rwa [inv.status_of_ne (h.allocated s hW) hu]⟩
        exact (inv.unchecked s (List.mem_append_right _ (mem_members_iff.mpr (.inl hm)))).2
      · exact .inr (.inr hf)
    · rintro (⟨hW, hm, hok⟩ | hc | hf)
      · rcases inv.status_cases (h.allocated s hW) with ⟨_, he⟩ | ⟨hm', _⟩ | ⟨hr, _⟩ | hkept
        · rw [he] at hok; cases hok
        · exact absurd hm' hm
        · exact .inl (.inr hr)
        · exact .inr (.inl ⟨hW, hkept ▸ hok⟩)
      · exact .inl (.inl hc)
      · exact .inr (.inr hf)
  error_iff s := by
    simp only [inv.plan, List.mem_append, h.error_iff]
    constructor
    · rintro (⟨hW, he⟩ | he)
      · have hu : st₀.heap.status s ≠ .unchecked := by intro hu; rw [hu] at he; cases he
        exact ⟨hW, by rwa [inv.status_of_ne (h.allocated s hW) hu]⟩
      · exact ⟨(inv.unchecked s (List.mem_append_left _ he)).1, by rw [(inv.err s he).1]; rfl⟩
    · rintro ⟨hW, he⟩
      rcases inv.status_cases (h.allocated s hW) with ⟨hm, _⟩ | ⟨_, ha⟩ | ⟨_, hc⟩ | hkept
      · exact .inr hm
      · rw [ha] at he; cases he
      · rw [hc] at he; cases he
      · exact .inl ⟨hW, hkept ▸ he⟩
  noChange_iff s := by
    simp only [inv.plan, h.noChange_iff]
    refine and_congr_right fun hW => ?_
    constructor
    · intro he
      rw [inv.status_of_ne (h.allocated s hW) (by rw [he]; decide), he]
    · intro he
      rcases inv.status_cases (h.allocated s hW) with ⟨_, hs⟩ | ⟨_, hs⟩ | ⟨_, hs⟩ | hkept
      · rw [he] at hs; cases hs
      · rw [he] at hs; cases hs
      · rw [he] at hs; cases hs
      · rw [← hkept, he]
  ok_nodup := by
    rw [inv.plan]
    have hring := (List.nodup_append.mp ((perm_members cuts).nodup_iff.mp
      (List.nodup_append.mp inv.nodup).2.1)).2.1
    have hun : ∀ s ∈ cuts.flatMap Cut.ring, Unchecked st₀.heap W s := fun s hs =>
      inv.unchecked s (List.mem_append_right _ (mem_members_iff.mpr (.inr hs)))
    have hlt : ∀ s ∈ st₀.plan.ok, s < st₀.heap.fresh := by
      intro s hs
      rcases (h.ok_iff s).mp hs with ⟨hW, _⟩ | hf
      · exact h.allocated s hW
      · exact (h.created s hf).2.1
    refine List.nodup_append.mpr ⟨(perm_renames cuts).nodup_iff.mpr
      (List.nodup_append.mpr ⟨inv.created_nodup, hring, ?_⟩), h.ok_nodup, ?_⟩
    · rintro a ha _ hb rfl
      exact (h.allocated a (hun a hb).1).not_ge (inv.created_bounds a ha).1
    · rintro a ha _ hb rfl
      rcases List.mem_append.mp ((perm_renames cuts).mem_iff.mp ha) with ha | ha
      · exact (hlt a hb).not_ge (inv.created_bounds a ha).1
      · exact h.notMem_ok (hun a ha).1 (hun a ha).2 hb
  error_nodup := by
    rw [inv.plan]
    refine List.nodup_append.mpr ⟨h.error_nodup, (List.nodup_append.mp inv.nodup).1, ?_⟩
    rintro a ha _ hb rfl
    have := ((h.error_iff a).mp ha).2
    rw [(inv.unchecked a (List.mem_append_left _ hb)).2] at this; cases this
  noChange_nodup := by rw [inv.plan]; exact h.noChange_nodup
  cut_apply s hs := ⟨(inv.unchecked s (List.mem_append_right _ (mem_members_iff.mpr (.inl hs)))).1,
    inv.status_of_mem_member hs⟩
  allocated s hs := (h.allocated s hs).trans_le inv.fresh
  created s hs := by
    rw [inv.plan] at hs
    rcases List.mem_append.mp hs with hs | hs
    · obtain ⟨h1, h2⟩ := inv.created_bounds s hs
      refine ⟨fun hW => (h.allocated s hW).not_ge h1, h2, ?_⟩
      obtain ⟨c, hc, hs⟩ := List.mem_flatMap.mp hs
      exact (inv.cut c hc).status_renames s (Cut.created_subset_renames hs)
    · obtain ⟨hW, hlt, hc⟩ := h.created s hs
      refine ⟨hW, hlt.trans_le inv.fresh, ?_⟩
      rw [inv.status_of_ne hlt (by rw [hc]; decide), hc]

end CrossInv

/-! ### The stages of `make_plan` -/

section
variable {fileExists : CString → Bool} {W : List SpecId} {h : Heap} {st : PlanState} {fuel : Nat}

/-- The plan `st` of qmv mode: `topologic_sort` appended `T` to the plan and left `pending`, of which
`cross_reference_resolve` made the circular sets `cuts` and the errors `errs`. -/
structure Ordered (fileExists : CString → Bool) (W : List SpecId) (h : Heap) (ts : TopologicState)
    (T pending : List SpecId) (cuts : List Cut) (errs : List SpecId) (st : PlanState) : Prop where
  topologic : TopologicInv fileExists (Unchecked (scanned fileExists W h).heap W) W
    (scanned fileExists W h) ts T pending
  stuck : ∀ s ∈ pending, ts.available ((scanned fileExists W h).heap.newName s) = none
  cross : CrossInv fileExists W ts.st W st cuts errs

theorem CrossInv.checked {st₀ : PlanState} {cuts : List Cut} {errs : List SpecId}
    (inv : CrossInv fileExists W st₀ W st cuts errs) (hlt : ∀ s ∈ W, s < st₀.heap.fresh) :
    ∀ s ∈ W, st.heap.status s ≠ .unchecked := fun s hs hu =>
  inv.notMem hu (inv.done s (inv.unchecked_of_status hlt hs hu))

theorem makePlan_qmv (hnd : W.Nodup) (hlt : ∀ s ∈ W, s < h.fresh)
    (hm : makePlan fuel .qmv fileExists W h = some st) :
    ∃ ts T pending cuts errs, Ordered fileExists W h ts T pending cuts errs st := by
  obtain ⟨st₁, hst₁, hm₁⟩ := Option.bind_eq_some_iff.mp hm
  change topologicSort fuel fileExists W (scanned fileExists W h) = some st₁ at hst₁
  obtain ⟨st₂, hst₂, hm₂⟩ := Option.bind_eq_some_iff.mp hm₁
  obtain ⟨ts, T, pending, rfl, inv, hstuck⟩ := topologicSort_inv hnd hst₁
  have hlt' : ∀ s ∈ W, s < ts.st.heap.fresh := by
    intro s hs
    rw [inv.base.fresh, (scanned_only hnd).fresh]
    exact hlt s hs
  obtain ⟨cuts, errs, cinv⟩ := crossReferenceResolve_inv hlt'
    ((topologicSort_narrowed hst₁).newDistinct (newDistinct_scanned fileExists W h)) hst₂
  have hst : applyUnchecked W st₂ = st := by simpa using hm₂
  rw [applyUnchecked, statusScan_of_checked (cinv.checked hlt')] at hst
  subst hst
  exact ⟨ts, T, pending, cuts, errs, inv, hstuck, cinv⟩

theorem Ordered.filed {ts : TopologicState} {T pending : List SpecId} {cuts : List Cut}
    {errs : List SpecId} (o : Ordered fileExists W h ts T pending cuts errs st) (hnd : W.Nodup)
    (hlt : ∀ s ∈ W, s < h.fresh) : Filed W (cuts.map Cut.member) st :=
  o.cross.filed (o.topologic.base.filed (filed_scanned hnd hlt))

theorem filed_applyUnchecked {cut : List SpecId} (f : Filed W cut st) : Filed W cut (applyUnchecked W st) :=
  statusScan_rule (fun _ _ hs hu h => h.addOk hs hu rfl) f

theorem filed_newExistsScan {cut : List SpecId} (f : Filed W cut st) :
    Filed W cut (newExistsScan fileExists W st) :=
  statusScan_rule (fun _ _ hs hu h => h.addError hs hu rfl)
    (statusScan_rule (fun _ _ hs hu h => h.addError hs hu rfl) f)

end

end Renameutils
