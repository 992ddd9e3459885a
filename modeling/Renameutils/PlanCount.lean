import Renameutils.Display
import Renameutils.MakePlan

/-!
# `make_plan` neither loses nor duplicates a spec

For specs with any statuses, names and links: after `make_plan` each of them is in exactly one of the
lists of the plan, once, but for one member of each circular set, which is replaced by two new specs.
-/

namespace Renameutils
open Chain

/-- All the specs of a plan. -/
def ApplyPlan.specs (plan : ApplyPlan) : List SpecId := plan.ok ++ plan.error ++ plan.noChange

namespace Filed
variable {W cut : List SpecId} {st : PlanState} {s : SpecId}

theorem specs_nodup (f : Filed W cut st) : st.plan.specs.Nodup := by
  refine List.nodup_append.mpr ⟨List.nodup_append.mpr ⟨f.ok_nodup, f.error_nodup, ?_⟩, f.noChange_nodup, ?_⟩
  · rintro a ha _ hb rfl
    obtain ⟨hW, he⟩ := (f.error_iff a).mp hb
    rcases (f.ok_iff a).mp ha with ⟨_, _, hok⟩ | hf
    · cases hst : st.heap.status a <;> simp_all [FileSpecStatus.isOk, FileSpecStatus.isError]
    · exact f.notMem_freeSpec hW hf
  · rintro a ha _ hb rfl
    obtain ⟨hW, hn⟩ := (f.noChange_iff a).mp hb
    rcases List.mem_append.mp ha with ha | ha
    · rcases (f.ok_iff a).mp ha with ⟨_, _, hok⟩ | hf
      · rw [hn] at hok; cases hok
      · exact f.notMem_freeSpec hW hf
    · have he := ((f.error_iff a).mp ha).2
      rw [hn] at he; cases he

theorem mem_specs (f : Filed W cut st) (hchecked : ∀ s ∈ W, st.heap.status s ≠ .unchecked) :
    s ∈ st.plan.specs ↔ (s ∈ W ∧ s ∉ cut) ∨ s ∈ st.plan.freeSpec := by
  simp only [ApplyPlan.specs, List.mem_append, f.ok_iff, f.error_iff, f.noChange_iff]
  constructor
  · rintro (((⟨hW, hc, _⟩ | hf) | ⟨hW, he⟩) | ⟨hW, hn⟩)
    · exact .inl ⟨hW, hc⟩
    · exact .inr hf
    · exact .inl ⟨hW, fun hc => by rw [(f.cut_apply s hc).2] at he; cases he⟩
    · exact .inl ⟨hW, fun hc => by rw [(f.cut_apply s hc).2] at hn; cases hn⟩
  · rintro (⟨hW, hc⟩ | hf)
    · have hu := hchecked s hW
      cases hst : st.heap.status s <;> simp_all [FileSpecStatus.isOk, FileSpecStatus.isError]
    · exact .inl (.inl (.inr hf))

theorem isOk_of_mem (f : Filed W cut st) (hs : s ∈ st.plan.ok) : (st.heap.status s).isOk = true := by
  rcases (f.ok_iff s).mp hs with ⟨_, _, hok⟩ | hf
  · exact hok
  · rw [(f.created s hf).2.2]; rfl

end Filed

/-- `c` is a circular set of unchecked specs of `W` in `h`: the new name of each is the old name of the
next one. In the plan of `st` its other members are circular renames and its member is absent; two new
specs move the member's file to a temporary name first and from there to its new name last. -/
structure CircularSet (W : List SpecId) (h : Heap) (st : PlanState) (c : Cut) : Prop where
  subset : ∀ s ∈ c.members, s ∈ W ∧ h.status s = .unchecked
  nodup : c.members.Nodup
  ring_ne : c.ring ≠ []
  circle : ∃ last, Walk (fun a b => h.oldName b = h.newName a) c.member c.ring last ∧
    h.oldName c.member = h.newName last
  fresh : ∀ s ∈ c.created, h.fresh ≤ s
  created_ok : ∀ s ∈ c.created, s ∈ st.plan.ok ∧ st.heap.status s = .circular
  ring_ok : ∀ s ∈ c.ring, s ∈ st.plan.ok ∧ st.heap.status s = .circular
  absent : c.member ∉ st.plan.specs
  newName_copy : st.heap.newName c.copy = h.newName c.member
  oldName_copy : st.heap.oldName c.copy = c.tmpName
  oldName_tmp : st.heap.oldName c.tmp = h.oldName c.member
  newName_tmp : st.heap.newName c.tmp = c.tmpName

/-- Each spec of `W` is once in the plan of `st`, but for the members of the circular sets `cuts` that
were found. -/
structure ExactlyOnce (W : List SpecId) (h : Heap) (st : PlanState) (cuts : List Cut) : Prop where
  checked : ∀ s ∈ W, st.heap.status s ≠ .unchecked
  circular : ∀ c ∈ cuts, CircularSet W h st c
  disjoint : (cuts.flatMap Cut.members).Nodup
  created_nodup : (cuts.flatMap Cut.created).Nodup
  found : ∀ s ∈ W, h.status s = .unchecked →
    (st.heap.status s = .circular ↔ ∃ c ∈ cuts, s ∈ c.ring)
  count : ∀ s ∈ W, st.plan.specs.count s = if s ∈ cuts.map Cut.member then 0 else 1
  count_created : ∀ s, s ∉ W → st.plan.specs.count s = if s ∈ cuts.flatMap Cut.created then 1 else 0

section
variable {fileExists : CString → Bool} {W : List SpecId} {h : Heap} {st : PlanState} {cuts : List Cut}

theorem scanned_ne_circular (hnd : W.Nodup) {s : SpecId} (hu : h.status s = .unchecked) :
    (scanned fileExists W h).heap.status s ≠ .circular := by
  rw [scanned_status hnd]
  split
  · split
    · decide
    · split
      · decide
      · split <;> decide
  · rw [hu]; decide

theorem ExactlyOnce.of_filed (f : Filed W (cuts.map Cut.member) st)
    (hchecked : ∀ s ∈ W, st.heap.status s ≠ .unchecked)
    (hfree : st.plan.freeSpec = cuts.flatMap Cut.created)
    (hcircular : ∀ c ∈ cuts, CircularSet W h st c) (hdisjoint : (cuts.flatMap Cut.members).Nodup)
    (hcreated : (cuts.flatMap Cut.created).Nodup)
    (hfound : ∀ s ∈ W, h.status s = .unchecked →
      (st.heap.status s = .circular ↔ ∃ c ∈ cuts, s ∈ c.ring)) : ExactlyOnce W h st cuts := by
  refine ⟨hchecked, hcircular, hdisjoint, hcreated, hfound, fun s hs => ?_, fun s hs => ?_⟩
  · rw [List.Nodup.count f.specs_nodup]
    by_cases hc : s ∈ cuts.map Cut.member
    · rw [if_pos hc, if_neg]
      rw [f.mem_specs hchecked]
      rintro (⟨_, hn⟩ | hf)
      · exact hn hc
      · exact f.notMem_freeSpec hs hf
    · rw [if_neg hc, if_pos ((f.mem_specs hchecked).mpr (.inl ⟨hs, hc⟩))]
  · rw [List.Nodup.count f.specs_nodup, ← hfree]
    congr 1
    rw [f.mem_specs hchecked, eq_iff_iff]
    exact ⟨fun hm => hm.resolve_left fun hm => hs hm.1, .inr⟩

theorem ExactlyOnce.of_scans (f : Filed W [] st) (hfree : st.plan.freeSpec = [])
    (hcircular : ∀ s, h.status s = .unchecked → st.heap.status s ≠ .circular) :
    ExactlyOnce W h (applyUnchecked W st) [] := by
  refine .of_filed (filed_applyUnchecked f) (fun s hs => ?_) ?_ (by simp) (by simp) (by simp)
    (fun s hs hu => ?_)
  · rw [applyUnchecked, statusScan_status (by decide) (fun _ _ => rfl) (fun _ _ _ => rfl)]
    split
    · decide
    · rename_i hno
      exact fun hu => hno ⟨hs, hu, rfl⟩
  · exact statusScan_rule (I := fun st => st.plan.freeSpec = []) (fun _ _ _ _ h => by exact h) hfree
  · have hne : (applyUnchecked W st).heap.status s ≠ .circular := by
      rw [applyUnchecked, statusScan_status (by decide) (fun _ _ => rfl) (fun _ _ _ => rfl)]
      split
      · decide
      · exact hcircular s hu
    simp [hne]

theorem Ordered.exactlyOnce {ts : TopologicState} {T pending errs : List SpecId}
    (o : Ordered fileExists W h ts T pending cuts errs st) (hnd : W.Nodup) (hlt : ∀ s ∈ W, s < h.fresh) :
    ExactlyOnce W h st cuts := by
  have f := o.filed hnd hlt
  have b := o.topologic.base
  have hfresh : ts.st.heap.fresh = h.fresh := by rw [b.fresh, (scanned_only hnd).fresh]
  have hlt' : ∀ s ∈ W, s < ts.st.heap.fresh := fun s hs => hfresh ▸ hlt s hs
  have hold : ts.st.heap.oldName = h.oldName := by rw [b.oldName, (scanned_only hnd).oldName]
  have hnew : ts.st.heap.newName = h.newName := by rw [b.newName, (scanned_only hnd).newName]
  have hun : ∀ s, Unchecked ts.st.heap W s → s ∈ W ∧ h.status s = .unchecked := by
    rintro s ⟨hs, hu⟩
    rw [b.status] at hu
    split at hu
    · cases hu
    · exact ⟨hs, ((unchecked_scanned_iff hnd).mp ⟨hs, hu⟩).2.1⟩
  have hchecked := o.cross.checked hlt'
  have hfree : st.plan.freeSpec = cuts.flatMap Cut.created := by
    rw [o.cross.plan, b.plan, scanned_freeSpec hnd, List.append_nil]
  have hmem : ∀ c ∈ cuts, ∀ s ∈ c.members, Unchecked ts.st.heap W s := fun c hc s hs =>
    o.cross.unchecked s (List.mem_append_right _ (List.mem_flatMap.mpr ⟨c, hc, hs⟩))
  have hok : ∀ c ∈ cuts, ∀ s ∈ c.renames, s ∈ st.plan.ok := by
    intro c hc s hs
    rw [o.cross.plan]
    exact List.mem_append_left _ (List.mem_flatMap.mpr ⟨c, hc, hs⟩)
  refine .of_filed f hchecked hfree (fun c hc => ?_) (List.nodup_append.mp o.cross.nodup).2.1
    o.cross.created_nodup (fun s hs hu => ?_)
  · have m := o.cross.cut c hc
    have hcreated : ∀ s ∈ c.created, s ∈ c.renames := fun s hs => Cut.created_subset_renames hs
    have hring : ∀ s ∈ c.ring, s ∈ c.renames := fun s hs => Cut.ring_mem_renames hs
    obtain ⟨last, hw, hback⟩ := m.walk
    have hnames : ∀ a b, LeadsTo W ts.st.heap a b → h.oldName b = h.newName a := by
      intro a b hab
      rw [← hold, ← hnew]; exact hab.name
    refine ⟨fun s hs => hun s (hmem c hc s hs), ?_, m.ring_ne,
      ⟨last, hw.imp_of_mem fun a b _ _ => hnames a b, hnames _ _ hback⟩, fun s hs => ?_,
      fun s hs => ⟨hok c hc s (hcreated s hs), m.status_renames s (hcreated s hs)⟩,
      fun s hs => ⟨hok c hc s (hring s hs), m.status_renames s (hring s hs)⟩, ?_, ?_, m.oldName_copy, ?_,
      m.newName_tmp⟩
    · exact (List.nodup_flatMap.mp (List.nodup_append.mp o.cross.nodup).2.1).1 c hc
    · exact hfresh ▸ (o.cross.created_bounds s (List.mem_flatMap.mpr ⟨c, hc, hs⟩)).1
    · rw [f.mem_specs hchecked]
      rintro (⟨_, hn⟩ | hf)
      · exact hn (List.mem_map_of_mem hc)
      · exact f.notMem_freeSpec (hmem c hc c.member List.mem_cons_self).1 hf
    · rw [m.newName_copy, hnew]
    · rw [m.oldName_tmp, hold]
  · constructor
    · intro hcirc
      have hm : s ∈ errs ++ cuts.flatMap Cut.members := by
        by_contra hm
        rw [o.cross.status s (hlt' s hs) hm, b.status] at hcirc
        split at hcirc
        · cases hcirc
        · exact scanned_ne_circular hnd hu hcirc
      rcases List.mem_append.mp hm with he | hm
      · rw [(o.cross.err s he).1] at hcirc; cases hcirc
      · obtain ⟨c, hc, hs⟩ := List.mem_flatMap.mp hm
        rcases List.mem_cons.mp hs with rfl | hs
        · rw [(o.cross.cut c hc).status_member] at hcirc; cases hcirc
        · exact ⟨c, hc, hs⟩
    · rintro ⟨c, hc, hs⟩
      exact (o.cross.cut c hc).status_renames s (Cut.ring_mem_renames hs)

theorem newExistsScan_rule {I : PlanState → Prop} (hadd : ∀ st s, I st → I (st.addError s .newExists))
    (hst : I st) : I (newExistsScan fileExists W st) :=
  statusScan_rule (fun st s _ _ h => hadd st s h) (statusScan_rule (fun st s _ _ h => hadd st s h) hst)

theorem makePlan_filed (hnd : W.Nodup) (hlt : ∀ s ∈ W, s < h.fresh) {program : Program} {fuel : Nat}
    (hm : makePlan fuel program fileExists W h = some st) :
    ∃ cuts, (program ≠ .qmv → cuts = []) ∧ Filed W (cuts.map Cut.member) st ∧ ExactlyOnce W h st cuts := by
  have f : Filed W [] (scanned fileExists W h) := filed_scanned hnd hlt
  have hfree : (scanned fileExists W h).plan.freeSpec = [] := scanned_freeSpec hnd
  have hcircular : ∀ s, h.status s = .unchecked → (scanned fileExists W h).heap.status s ≠ .circular :=
    fun s hu => scanned_ne_circular hnd hu
  cases program with
  | qmv =>
    obtain ⟨ts, T, pending, cuts, errs, o⟩ := makePlan_qmv hnd hlt hm
    exact ⟨cuts, fun h => absurd rfl h, o.filed hnd hlt, o.exactlyOnce hnd hlt⟩
  | qcp =>
    obtain rfl : applyUnchecked W (newExistsScan fileExists W (scanned fileExists W h)) = st :=
      Option.some.inj hm
    have f' : Filed W [] (newExistsScan fileExists W (scanned fileExists W h)) := filed_newExistsScan f
    refine ⟨[], fun _ => rfl, filed_applyUnchecked f', .of_scans f' ?_ ?_⟩
    · exact newExistsScan_rule (I := fun st => st.plan.freeSpec = []) (fun _ _ h => by exact h) hfree
    · refine newExistsScan_rule (I := fun st => ∀ s, h.status s = .unchecked → st.heap.status s ≠ .circular)
        (fun st t hst s hu => ?_) hcircular
      rw [PlanState.addError, Heap.status_setStatus]
      split
      · decide
      · exact hst s hu
  | other =>
    obtain rfl : applyUnchecked W (scanned fileExists W h) = st := Option.some.inj hm
    exact ⟨[], fun _ => rfl, filed_applyUnchecked f, .of_scans f hfree hcircular⟩

end

/-- `make_plan` puts each spec into exactly one list of the plan, whatever the specs were before, and
`display_plan` can show the plan. It returns when finitely many files exist. -/
theorem makePlan_exactlyOnce (program : Program) (fileExists : CString → Bool) {W : List SpecId} {h : Heap}
    (hnd : W.Nodup) (hlt : ∀ s ∈ W, s < h.fresh) :
    (∀ fuel st, makePlan fuel program fileExists W h = some st →
      ∃ cuts, ExactlyOnce W h st cuts ∧ (program ≠ .qmv → cuts = []) ∧
        (∀ s ∈ st.plan.error, st.heap.status s ∈ [.oldMissing, .duplicate, .newExists]) ∧
        (∀ s ∈ st.plan.ok, st.heap.status s ∈ [.apply, .circular]) ∧
        (∀ s ∈ st.plan.noChange, st.heap.status s = .noChange) ∧
        displayPlan program st.heap st.plan ≠ none) ∧
    ∀ F : List CString, (∀ n, fileExists n = true → n ∈ F) →
      ∃ fuel₀, ∀ fuel ≥ fuel₀, makePlan fuel program fileExists W h ≠ none := by
  refine ⟨fun fuel st hm => ?_, fun F hF => ⟨F.length + W.length + 1, fun fuel hfuel => ?_⟩⟩
  · obtain ⟨cuts, hcuts, f, e⟩ := makePlan_filed hnd hlt hm
    have herror : ∀ s ∈ st.plan.error, (st.heap.status s).isError = true := fun s hs =>
      ((f.error_iff s).mp hs).2
    have hok : ∀ s ∈ st.plan.ok, (st.heap.status s).isOk = true := fun s hs => f.isOk_of_mem hs
    refine ⟨cuts, e, hcuts, fun s hs => ?_, fun s hs => ?_, fun s hs => ((f.noChange_iff s).mp hs).2, ?_⟩
    · have := herror s hs
      cases hst : st.heap.status s <;> simp_all [FileSpecStatus.isError]
    · have := hok s hs
      cases hst : st.heap.status s <;> simp_all [FileSpecStatus.isOk]
    · exact Option.isSome_iff_ne_none.mp (displayPlan_isSome program herror hok)
  · exact Option.isSome_iff_ne_none.mp (makePlan_isSome hlt program hF (by omega))

/-- Two files whose names are exchanged. -/
theorem makePlan_exactlyOnce_swap :
    let h := (Heap.empty.newFileSpec ⟨[97], [98], none, none, .unchecked⟩).newFileSpec
      ⟨[98], [97], none, none, .unchecked⟩
    let exist : List CString := [[97], [98]]
    ∃ st cuts, makePlan 10 .qmv (exist.contains ·) [0, 1] h = some st ∧ ExactlyOnce [0, 1] h st cuts := by
  intro h exist
  have hm : (makePlan 10 .qmv (exist.contains ·) [0, 1] h).isSome = true := by decide
  obtain ⟨st, hst⟩ := Option.isSome_iff_exists.mp hm
  obtain ⟨cuts, e, _⟩ := (makePlan_exactlyOnce .qmv (exist.contains ·) (by decide) (by decide)).1 10 st hst
  exact ⟨st, cuts, hst, e⟩

end Renameutils
