import Renameutils.PlanCircular
import Renameutils.PlanTopologic

/-!
# `cross_reference_resolve`

`CrossInv`: the specs that `topologic_sort` left unchecked are either put among the errors, because
no chain of renamings returns to them, or are in one of the circular sets `cuts`, whose renames are
put at the head of `plan->ok`. Only distinct new names are needed for that; the old names may be
anything.
-/

namespace Renameutils
open Chain Relator

/-- What the scans leave of any specs. -/
structure NewDistinct (h : Heap) (R : SpecId → Prop) : Prop where
  new_inj : ∀ s t, R s → R t → h.newName s = h.newName t → s = t
  old_ne : ∀ s, R s → h.oldName s ≠ h.newName s

/-- `b` is the spec that `cross_reference_resolve` goes to from `a`. -/
abbrev LeadsTo (W : List SpecId) (h : Heap) : SpecId → SpecId → Prop :=
  Leads (Unchecked h W) (oldNameMap W h) h.newName

section
variable {W : List SpecId} {h : Heap} {a b : SpecId}

theorem LeadsTo.unchecked (hab : LeadsTo W h a b) : Unchecked h W b :=
  have hb := oldNameMap_some hab.2
  ⟨hb.1, hb.2.1⟩

theorem LeadsTo.name (hab : LeadsTo W h a b) : h.oldName b = h.newName a := (oldNameMap_some hab.2).2.2

theorem LeadsTo.rightUnique : RightUnique (LeadsTo W h) := by
  intro a b c hb hc
  have := hb.2.symm.trans hc.2
  cases this; rfl

theorem unchecked_of_walk {path : List SpecId} (hw : Walk (LeadsTo W h) a path b) (ha : Unchecked h W a) :
    ∀ s ∈ a :: path, Unchecked h W s := by
  refine List.forall_mem_cons.mpr ⟨ha, fun s hs => ?_⟩
  obtain ⟨_, y, _, _, hy⟩ := hw.exists_pred hs
  exact hy.unchecked

theorem NewDistinct.leftUnique (N : NewDistinct h (Unchecked h W)) : LeftUnique (LeadsTo W h) := by
  intro a b c ha hb
  exact N.new_inj a b ha.1 hb.1 (ha.name.symm.trans hb.name)

end

/-- The specs of the circular set `c` as `cross_reference_resolve` left them in `h`; `st₀` is the
state that it started from. -/
structure CutMade (fileExists : CString → Bool) (W : List SpecId) (h₀ h : Heap) (c : Cut) : Prop where
  walk : ∃ last, Walk (LeadsTo W h₀) c.member c.ring last ∧ LeadsTo W h₀ last c.member
  ring_ne : c.ring ≠ []
  tmpName_numbered : ∃ n, c.tmpName = (h₀.oldName c.member).numbered n
  tmpName_free : fileExists c.tmpName = false
  tmpName_new : (newNameMap W h₀).contains c.tmpName = false
  oldName_copy : h.oldName c.copy = c.tmpName
  newName_copy : h.newName c.copy = h₀.newName c.member
  oldName_tmp : h.oldName c.tmp = h₀.oldName c.member
  newName_tmp : h.newName c.tmp = c.tmpName
  status_member : h.status c.member = .apply
  status_renames : ∀ s ∈ c.renames, h.status s = .circular
  linked : Walk (Linked h) c.tmp (c.ring.reverse ++ [c.copy]) c.copy
  named : Walk (fun a b => h.oldName a = h.newName b) c.tmp (c.ring.reverse ++ [c.copy]) c.copy
  prev_tmp : h.prevSpec c.tmp = none
  next_copy : h.nextSpec c.copy = none
  prev_member : h.prevSpec c.member = none
  next_member : h.nextSpec c.member = none

namespace CutMade
variable {fileExists : CString → Bool} {W : List SpecId} {h₀ h h' : Heap} {c : Cut} {s : SpecId}

theorem of_agree (m : CutMade fileExists W h₀ h c)
    (hs : ∀ s ∈ c.members ++ c.created, h'.spec s = h.spec s) : CutMade fileExists W h₀ h' c := by
  have hr : ∀ s ∈ c.renames, s ∈ c.members ++ c.created := fun s hs => Cut.mem_members_created.mpr (.inr hs)
  have hmem : c.member ∈ c.members ++ c.created := Cut.mem_members_created.mpr (.inl rfl)
  have hcopy : c.copy ∈ c.members ++ c.created := hr _ c.copy_mem_renames
  have htmp : c.tmp ∈ c.members ++ c.created := hr _ c.tmp_mem_renames
  have hold : ∀ s ∈ c.members ++ c.created, h'.oldName s = h.oldName s :=
    fun s h => congrArg FileSpec.oldName (hs s h)
  have hnew : ∀ s ∈ c.members ++ c.created, h'.newName s = h.newName s :=
    fun s h => congrArg FileSpec.newName (hs s h)
  have hprev : ∀ s ∈ c.members ++ c.created, h'.prevSpec s = h.prevSpec s :=
    fun s h => congrArg FileSpec.prevSpec (hs s h)
  have hnext : ∀ s ∈ c.members ++ c.created, h'.nextSpec s = h.nextSpec s :=
    fun s h => congrArg FileSpec.nextSpec (hs s h)
  have hstat : ∀ s ∈ c.members ++ c.created, h'.status s = h.status s :=
    fun s h => congrArg FileSpec.status (hs s h)
  refine ⟨m.walk, m.ring_ne, m.tmpName_numbered, m.tmpName_free, m.tmpName_new, ?_, ?_, ?_, ?_, ?_, ?_,
    ?_, ?_, ?_, ?_, ?_, ?_⟩
  · rw [hold _ hcopy, m.oldName_copy]
  · rw [hnew _ hcopy, m.newName_copy]
  · rw [hold _ htmp, m.oldName_tmp]
  · rw [hnew _ htmp, m.newName_tmp]
  · rw [hstat _ hmem, m.status_member]
  · intro s hs'; rw [hstat s (hr s hs'), m.status_renames s hs']
  · refine m.linked.imp_of_mem fun a b ha hb hab => ⟨?_, ?_⟩
    · rw [hnext a (hr a ha), hab.1]
    · rw [hprev b (hr b (List.mem_cons_of_mem _ hb)), hab.2]
  · refine m.named.imp_of_mem fun a b ha hb hab => ?_
    rw [hold a (hr a ha), hnew b (hr b (List.mem_cons_of_mem _ hb)), hab]
  · rw [hprev _ htmp, m.prev_tmp]
  · rw [hnext _ hcopy, m.next_copy]
  · rw [hprev _ hmem, m.prev_member]
  · rw [hnext _ hmem, m.next_member]

theorem ne_unchecked (m : CutMade fileExists W h₀ h c) (hs : s ∈ c.members ++ c.created) :
    h.status s ≠ .unchecked := by
  rcases Cut.mem_members_created.mp hs with rfl | hr
  · rw [m.status_member]; decide
  · rw [m.status_renames s hr]; decide

end CutMade

/-- The state of `cross_reference_resolve` after the specs `done`. -/
structure CrossInv (fileExists : CString → Bool) (W : List SpecId) (st₀ : PlanState) (done : List SpecId)
    (st : PlanState) (cuts : List Cut) (errs : List SpecId) : Prop where
  fresh : st₀.heap.fresh ≤ st.heap.fresh
  oldName : ∀ s < st₀.heap.fresh, st.heap.oldName s = st₀.heap.oldName s
  newName : ∀ s < st₀.heap.fresh, st.heap.newName s = st₀.heap.newName s
  status : ∀ s < st₀.heap.fresh, s ∉ errs ++ cuts.flatMap Cut.members →
    st.heap.status s = st₀.heap.status s
  prevSpec : ∀ s < st₀.heap.fresh, s ∉ cuts.flatMap Cut.members →
    st.heap.prevSpec s = st₀.heap.prevSpec s
  nextSpec : ∀ s < st₀.heap.fresh, ¬ Unchecked st₀.heap W s →
    st.heap.nextSpec s = st₀.heap.nextSpec s
  plan : st.plan = { st₀.plan with
    ok := cuts.flatMap Cut.renames ++ st₀.plan.ok
    error := st₀.plan.error ++ errs
    freeSpec := cuts.flatMap Cut.created ++ st₀.plan.freeSpec }
  nodup : (errs ++ cuts.flatMap Cut.members).Nodup
  unchecked : ∀ s ∈ errs ++ cuts.flatMap Cut.members, Unchecked st₀.heap W s
  done : ∀ s, Unchecked st₀.heap done s → s ∈ errs ++ cuts.flatMap Cut.members
  created_nodup : (cuts.flatMap Cut.created).Nodup
  created_bounds : ∀ s ∈ cuts.flatMap Cut.created, st₀.heap.fresh ≤ s ∧ s < st.heap.fresh
  cut : ∀ c ∈ cuts, CutMade fileExists W st₀.heap st.heap c
  err : ∀ s ∈ errs, st.heap.status s = .newExists ∧ st.heap.nextSpec s = none ∧
    ¬ Returns (LeadsTo W st₀.heap) s

namespace CrossInv
variable {fileExists : CString → Bool} {W done rest errs : List SpecId} {st₀ st st' : PlanState}
  {cuts : List Cut} {s s1 : SpecId}

theorem nil (fileExists : CString → Bool) (W : List SpecId) (st₀ : PlanState) :
    CrossInv fileExists W st₀ [] st₀ [] [] := by
  constructor <;> simp [Unchecked]

theorem notMem (inv : CrossInv fileExists W st₀ done st cuts errs) (hu : st.heap.status s = .unchecked) :
    s ∉ errs ++ cuts.flatMap Cut.members := by
  intro hm
  rcases List.mem_append.mp hm with hm | hm
  · rw [(inv.err s hm).1] at hu; cases hu
  · obtain ⟨c, hc, hs⟩ := List.mem_flatMap.mp hm
    exact (inv.cut c hc).ne_unchecked (List.mem_append_left _ hs) hu

theorem unchecked_of_status (inv : CrossInv fileExists W st₀ done st cuts errs)
    (hlt : ∀ s ∈ W, s < st₀.heap.fresh) (hs : s ∈ W) (hu : st.heap.status s = .unchecked) :
    Unchecked st₀.heap W s :=
  ⟨hs, by rw [← inv.status s (hlt s hs) (inv.notMem hu)]; exact hu⟩

theorem mem_of_status (inv : CrossInv fileExists W st₀ done st cuts errs)
    (hlt : ∀ s ∈ W, s < st₀.heap.fresh) (hs : Unchecked st₀.heap W s)
    (hu : st.heap.status s ≠ .unchecked) : s ∈ errs ++ cuts.flatMap Cut.members := by
  by_contra hm
  rw [inv.status s (hlt s hs.1) hm] at hu
  exact hu hs.2

theorem skip (inv : CrossInv fileExists W st₀ done st cuts errs) (hlt : ∀ s ∈ W, s < st₀.heap.fresh)
    (hs : s1 ∈ W) (hu : st.heap.status s1 ≠ .unchecked) :
    CrossInv fileExists W st₀ (done ++ [s1]) st cuts errs where
  __ := inv
  done s h := by
    rcases List.mem_append.mp h.1 with hd | hd
    · exact inv.done s ⟨hd, h.2⟩
    · obtain rfl := List.mem_singleton.mp hd
      exact inv.mem_of_status hlt ⟨hs, h.2⟩ hu

theorem leadsTo (inv : CrossInv fileExists W st₀ done st cuts errs) (hlt : ∀ s ∈ W, s < st₀.heap.fresh) :
    Leads (Unchecked st₀.heap W) (oldNameMap W st₀.heap) st.heap.newName = LeadsTo W st₀.heap := by
  funext a b
  refine propext (and_congr_right fun ha => ?_)
  rw [inv.newName a (hlt a ha.1)]

theorem walk (inv : CrossInv fileExists W st₀ done st cuts errs) (hlt : ∀ s ∈ W, s < st₀.heap.fresh)
    {path : List SpecId} {last : SpecId} {h₁ : Heap}
    (f : Followed (Unchecked st₀.heap W) (oldNameMap W st₀.heap) s1 st.heap path last h₁) :
    Walk (LeadsTo W st₀.heap) s1 path last :=
  inv.leadsTo hlt ▸ f.walk

/-- The circular sets are closed under the renamings. -/
theorem members_closed (inv : CrossInv fileExists W st₀ done st cuts errs) {c : Cut} (hc : c ∈ cuts)
    {a b : SpecId} (ha : a ∈ c.members) (hab : LeadsTo W st₀.heap a b) : b ∈ c.members := by
  obtain ⟨last, hw, hback⟩ := (inv.cut c hc).walk
  exact hw.closed LeadsTo.rightUnique hback ha hab

/-- A dead end after `s1`: no chain of renamings returns to it. -/
theorem not_returns (inv : CrossInv fileExists W st₀ done st cuts errs)
    (hlt : ∀ s ∈ W, s < st₀.heap.fresh) (hu : st.heap.status s1 = .unchecked) {path : List SpecId}
    {last : SpecId} (hw : Walk (LeadsTo W st₀.heap) s1 path last)
    (hdead : ∀ t, LeadsTo W st₀.heap last t → st.heap.status t ≠ .unchecked) :
    ¬ Returns (LeadsTo W st₀.heap) s1 := by
  intro hret
  have hlast := hret.of_reflTransGen LeadsTo.rightUnique hw.reflTransGen
  obtain ⟨t, ht, _⟩ := Relation.TransGen.head'_iff.mp hlast
  have hrt := hlast.of_rel LeadsTo.rightUnique ht
  rcases List.mem_append.mp (inv.mem_of_status hlt ht.unchecked (hdead t ht)) with he | hm
  · exact (inv.err t he).2.2 hrt
  · obtain ⟨c, hc, htc⟩ := List.mem_flatMap.mp hm
    have hback := hret.reaches_back LeadsTo.rightUnique (hw.reflTransGen.tail ht)
    have hsc : s1 ∈ c.members := by
      refine Relation.ReflTransGen.head_induction_on (motive := fun a _ => a ∈ c.members → s1 ∈ c.members)
        hback (fun h => h) (fun hab _ ih ha => ih (inv.members_closed hc ha hab)) htc
    exact inv.notMem hu (List.mem_append_right _ (List.mem_flatMap.mpr ⟨c, hc, hsc⟩))

theorem reject (inv : CrossInv fileExists W st₀ done st cuts errs) (hlt : ∀ s ∈ W, s < st₀.heap.fresh)
    (hs : s1 ∈ W) (hu : st.heap.status s1 = .unchecked) {path : List SpecId} {last : SpecId} {h₁ : Heap}
    (f : Followed (Unchecked st₀.heap W) (oldNameMap W st₀.heap) s1 st.heap path last h₁)
    (hdead : ∀ t, LeadsTo W st₀.heap last t → st.heap.status t ≠ .unchecked) :
    CrossInv fileExists W st₀ (done ++ [s1])
      (PlanState.addError ⟨h₁.setNext s1 none, st.plan⟩ s1 .newExists) cuts (errs ++ [s1]) := by
  have hw := inv.walk hlt f
  have hs1 := inv.unchecked_of_status hlt hs hu
  have hspec : ∀ s, st.heap.status s ≠ .unchecked →
      ((h₁.setNext s1 none).setStatus s1 .newExists).spec s = st.heap.spec s := by
    intro s hsu
    have hsp : s ∉ s1 :: path := fun h => hsu (f.unchecked_cons hu s h)
    have hne : s ≠ s1 := fun h => hsp (by simp [h])
    rw [← f.spec_eq hsp]
    simp only [Heap.spec, Heap.setNext, Heap.setStatus, Function.update_of_ne hne]
  have hmem : ∀ s, s ∈ (errs ++ [s1]) ++ cuts.flatMap Cut.members ↔
      s ∈ errs ++ cuts.flatMap Cut.members ∨ s = s1 := by
    intro s; simp only [List.mem_append, List.mem_singleton]; tauto
  refine ⟨?_, ?_, ?_, ?_, ?_, ?_, ?_, ?_, ?_, ?_, inv.created_nodup, ?_, ?_, ?_⟩
  · exact f.fresh_eq ▸ inv.fresh
  · exact fun s h => (congrFun f.oldName_eq s).trans (inv.oldName s h)
  · exact fun s h => (congrFun f.newName_eq s).trans (inv.newName s h)
  · intro s h hm
    rw [hmem, not_or] at hm
    rw [← inv.status s h hm.1, ← f.status_eq]
    exact Function.update_of_ne hm.2 _ _
  · exact fun s h hm => (congrFun f.prevSpec_eq s).trans (inv.prevSpec s h hm)
  · intro s h hm
    rw [← inv.nextSpec s h hm]
    have hsp : s ∉ s1 :: path := fun hsp => hm (unchecked_of_walk hw hs1 s hsp)
    exact (Function.update_of_ne (fun h => hsp (by simp [h])) _ _).trans (f.frame s hsp)
  · simp [PlanState.addError, inv.plan]
  · refine (List.Perm.nodup_iff ?_).mp (List.nodup_cons.mpr ⟨inv.notMem hu, inv.nodup⟩)
    rw [List.append_assoc]
    exact List.perm_middle.symm
  · intro s h
    rcases (hmem s).mp h with h | rfl
    · exact inv.unchecked s h
    · exact hs1
  · intro s h
    rw [hmem]
    rcases List.mem_append.mp h.1 with hd | hd
    · exact .inl (inv.done s ⟨hd, h.2⟩)
    · exact .inr (List.mem_singleton.mp hd)
  · exact fun s h => f.fresh_eq ▸ inv.created_bounds s h
  · exact fun c hc => (inv.cut c hc).of_agree fun s h => hspec s ((inv.cut c hc).ne_unchecked h)
  · intro s h
    rcases List.mem_append.mp h with h | h
    · obtain ⟨h1, h2, h3⟩ := inv.err s h
      have hsu : st.heap.status s ≠ .unchecked := by rw [h1]; decide
      have e := hspec s hsu
      exact ⟨(congrArg FileSpec.status e).trans h1, (congrArg FileSpec.nextSpec e).trans h2, h3⟩
    · obtain rfl := List.mem_singleton.mp h
      exact ⟨Function.update_self .., Function.update_self .., inv.not_returns hlt hu hw hdead⟩

section
variable {c : Cut} {last : SpecId} {h₁ : Heap}

theorem lt_of_mem (inv : CrossInv fileExists W st₀ done st cuts errs) (hlt : ∀ s ∈ W, s < st₀.heap.fresh)
    (hs1 : Unchecked st₀.heap W s1) {path : List SpecId}
    (f : Followed (Unchecked st₀.heap W) (oldNameMap W st₀.heap) s1 st.heap path last h₁)
    (hs : s ∈ s1 :: path) : s < h₁.fresh := by
  rw [f.fresh_eq]
  exact (hlt s (unchecked_of_walk (inv.walk hlt f) hs1 s hs).1).trans_le inv.fresh

theorem spec_addCut (inv : CrossInv fileExists W st₀ done st cuts errs) (hlt : ∀ s ∈ W, s < st₀.heap.fresh)
    (f : Followed (Unchecked st₀.heap W) (oldNameMap W st₀.heap) c.member st.heap c.ring last h₁)
    (r : Resolved c ⟨h₁.setNext last none, st.plan⟩ st') (hs : s < st.heap.fresh) (hm : s ∉ c.members) :
    st'.heap.spec s = st.heap.spec s := by
  have hlast : s ≠ last := fun h => hm (h ▸ (inv.walk hlt f).last_mem)
  rw [r.spec_eq (f.fresh_eq.symm ▸ hs) hm, ← f.spec_eq hm]
  simp only [Heap.spec, Heap.setNext, Function.update_of_ne hlast]

/-- The new circular set is as `cross_reference_resolve` leaves it. -/
theorem cutMade (inv : CrossInv fileExists W st₀ done st cuts errs) (hlt : ∀ s ∈ W, s < st₀.heap.fresh)
    (N : NewDistinct st₀.heap (Unchecked st₀.heap W)) (hm : Unchecked st₀.heap W c.member)
    (f : Followed (Unchecked st₀.heap W) (oldNameMap W st₀.heap) c.member st.heap c.ring last h₁)
    (hback : LeadsTo W st₀.heap last c.member) (hne : c.ring ≠ [])
    (hnum : ∃ n, c.tmpName = (st₀.heap.oldName c.member).numbered n)
    (hfree : fileExists c.tmpName = false) (htmp : (newNameMap W st₀.heap).contains c.tmpName = false)
    (r : Resolved c ⟨h₁.setNext last none, st.plan⟩ st') : CutMade fileExists W st₀.heap st'.heap c := by
  have hw := inv.walk hlt f
  have hU := unchecked_of_walk hw hm
  have hltm : ∀ s ∈ c.members, s < h₁.fresh := fun s hs => inv.lt_of_mem hlt hm f hs
  have hold : ∀ s ∈ c.members, h₁.oldName s = st₀.heap.oldName s := fun s hs =>
    (congrFun f.oldName_eq s).trans (inv.oldName s (hlt s (hU s hs).1))
  have hnew : ∀ s ∈ c.members, h₁.newName s = st₀.heap.newName s := fun s hs =>
    (congrFun f.newName_eq s).trans (inv.newName s (hlt s (hU s hs).1))
  have hnames : ∀ a ∈ c.members, ∀ b ∈ c.members, LeadsTo W st₀.heap a b →
      (h₁.setNext last none).oldName b = (h₁.setNext last none).newName a := fun a ha b hb hab =>
    (hold b hb).trans (hab.name.trans (hnew a ha).symm)
  have hmember : c.member ∈ c.members := List.mem_cons_self
  have hnot : c.member ∉ c.renames := by
    have hlt := hltm c.member hmember
    rw [Cut.mem_renames, r.tmp, r.copy, not_or, not_or]
    exact ⟨(Nat.lt_succ_of_lt hlt).ne, f.notMem, hlt.ne⟩
  refine ⟨⟨last, hw, hback⟩, hne, hnum, hfree, htmp, r.oldName_copy, r.newName_copy.trans (hnew _ hmember),
    r.oldName_tmp.trans (hold _ hmember), r.newName_tmp, ?_, ?_, r.linked, ?_, r.prev_tmp, r.next_copy,
    r.prev_member, r.next_member⟩
  · rw [r.status, if_pos rfl]
  · intro s hs
    have hne : s ≠ c.member := fun h => hnot (h ▸ hs)
    rw [r.status, if_neg hne, if_pos hs]
  · refine r.named hltm (hw.nodup N.leftUnique f.notMem) hne ?_ (hnames _ hw.last_mem _ hmember hback)
    exact hw.imp_of_mem fun a b ha hb hab => hnames a ha b (List.mem_cons_of_mem _ hb) hab

theorem created_addCut (inv : CrossInv fileExists W st₀ done st cuts errs)
    (f : Followed (Unchecked st₀.heap W) (oldNameMap W st₀.heap) c.member st.heap c.ring last h₁)
    (r : Resolved c ⟨h₁.setNext last none, st.plan⟩ st') :
    ((c :: cuts).flatMap Cut.created).Nodup ∧
      ∀ s ∈ (c :: cuts).flatMap Cut.created, st₀.heap.fresh ≤ s ∧ s < st'.heap.fresh := by
  have hfresh' : st'.heap.fresh = st.heap.fresh + 2 := r.fresh.trans (congrArg (· + 2) f.fresh_eq)
  have hcreated : ∀ s ∈ c.created, st.heap.fresh ≤ s ∧ s < st.heap.fresh + 2 := by
    intro s h
    rw [Cut.mem_created, r.tmp, r.copy] at h
    rw [← f.fresh_eq]
    rcases h with rfl | rfl
    · exact ⟨Nat.le_succ _, Nat.lt_succ_self _⟩
    · exact ⟨Nat.le_refl _, Nat.lt_add_of_pos_right (by decide)⟩
  rw [List.flatMap_cons]
  refine ⟨List.nodup_append.mpr ⟨by simpa [Cut.created] using r.copy_ne_tmp.symm, inv.created_nodup, ?_⟩, ?_⟩
  · rintro a ha _ hb rfl
    exact (inv.created_bounds a hb).2.not_ge (hcreated a ha).1
  · intro s hs
    rw [hfresh']
    rcases List.mem_append.mp hs with hs | hs
    · exact (hcreated s hs).imp_left inv.fresh.trans
    · exact (inv.created_bounds s hs).imp_right fun hlt => hlt.trans (Nat.lt_add_of_pos_right (by decide))

theorem addCut (inv : CrossInv fileExists W st₀ done st cuts errs) (hlt : ∀ s ∈ W, s < st₀.heap.fresh)
    (N : NewDistinct st₀.heap (Unchecked st₀.heap W)) (hs : c.member ∈ W)
    (hu : st.heap.status c.member = .unchecked)
    (f : Followed (Unchecked st₀.heap W) (oldNameMap W st₀.heap) c.member st.heap c.ring last h₁)
    (hback : LeadsTo W st₀.heap last c.member) (hne : c.ring ≠ [])
    (hnum : ∃ n, c.tmpName = (st₀.heap.oldName c.member).numbered n)
    (hfree : fileExists c.tmpName = false) (htmp : (newNameMap W st₀.heap).contains c.tmpName = false)
    (r : Resolved c ⟨h₁.setNext last none, st.plan⟩ st') :
    CrossInv fileExists W st₀ (done ++ [c.member]) st' (c :: cuts) errs := by
  have hw := inv.walk hlt f
  have hm := inv.unchecked_of_status hlt hs hu
  have hnd : c.members.Nodup := hw.nodup N.leftUnique f.notMem
  have hU : ∀ s ∈ c.members, Unchecked st₀.heap W s := unchecked_of_walk hw hm
  have hun : ∀ s ∈ c.members, st.heap.status s = .unchecked := f.unchecked_cons hu
  have hfresh' : st'.heap.fresh = st.heap.fresh + 2 := r.fresh.trans (congrArg (· + 2) f.fresh_eq)
  have hspec : ∀ s < st.heap.fresh, s ∉ c.members → st'.heap.spec s = st.heap.spec s :=
    fun s hs hm => inv.spec_addCut hlt f r hs hm
  have hlt' : ∀ s < st₀.heap.fresh, s < h₁.fresh := fun s h => f.fresh_eq ▸ h.trans_le inv.fresh
  have hold' : ∀ s < st₀.heap.fresh, st'.heap.oldName s = st₀.heap.oldName s := fun s hs =>
    (r.oldName_of_lt (hlt' s hs)).trans ((congrFun f.oldName_eq s).trans (inv.oldName s hs))
  have hnew' : ∀ s < st₀.heap.fresh, st'.heap.newName s = st₀.heap.newName s := fun s hs =>
    (r.newName_of_lt (hlt' s hs)).trans ((congrFun f.newName_eq s).trans (inv.newName s hs))
  have hout : ∀ s ∈ errs ++ cuts.flatMap Cut.members, s ∉ c.members := fun s h hm => inv.notMem (hun s hm) h
  have hperm : (errs ++ (c :: cuts).flatMap Cut.members).Perm
      (c.members ++ (errs ++ cuts.flatMap Cut.members)) := by
    rw [List.flatMap_cons, ← List.append_assoc, ← List.append_assoc]
    exact List.Perm.append_right _ List.perm_append_comm
  have hmem : ∀ s, s ∈ errs ++ (c :: cuts).flatMap Cut.members ↔
      s ∈ c.members ∨ s ∈ errs ++ cuts.flatMap Cut.members := fun s => by
    rw [hperm.mem_iff, List.mem_append]
  obtain ⟨hcnd, hcb⟩ := inv.created_addCut f r
  exact {
    fresh := hfresh' ▸ inv.fresh.trans (Nat.le_add_right _ 2)
    oldName := hold'
    newName := hnew'
    status := by
      intro s hs hm
      rw [hmem, not_or] at hm
      rw [← inv.status s hs hm.2]
      exact congrArg FileSpec.status (hspec s (hs.trans_le inv.fresh) hm.1)
    prevSpec := by
      intro s hs hm
      rw [List.flatMap_cons, List.mem_append, not_or] at hm
      rw [← inv.prevSpec s hs hm.2]
      exact congrArg FileSpec.prevSpec (hspec s (hs.trans_le inv.fresh) hm.1)
    nextSpec := by
      intro s hs hm
      rw [← inv.nextSpec s hs hm]
      exact congrArg FileSpec.nextSpec (hspec s (hs.trans_le inv.fresh) fun h => hm (hU s h))
    plan := by
      rw [r.plan]
      simp [inv.plan]
    nodup := by
      refine hperm.nodup_iff.mpr (List.nodup_append.mpr ⟨hnd, inv.nodup, ?_⟩)
      rintro a ha _ hb rfl
      exact hout a hb ha
    unchecked := by
      intro s hs
      rcases (hmem s).mp hs with hs | hs
      · exact hU s hs
      · exact inv.unchecked s hs
    done := by
      intro s hs
      rw [hmem]
      rcases List.mem_append.mp hs.1 with hd | hd
      · exact .inr (inv.done s ⟨hd, hs.2⟩)
      · rw [List.mem_singleton.mp hd]
        exact .inl List.mem_cons_self
    created_nodup := hcnd
    created_bounds := hcb
    cut := by
      intro d hd
      rcases List.mem_cons.mp hd with rfl | hd
      · exact inv.cutMade hlt N hm f hback hne hnum hfree htmp r
      · refine (inv.cut d hd).of_agree fun s hs => hspec s ?_ ?_
        · rcases List.mem_append.mp hs with hs | hs
          · exact (hlt s (inv.unchecked s (List.mem_append_right _
              (List.mem_flatMap.mpr ⟨d, hd, hs⟩))).1).trans_le inv.fresh
          · exact (inv.created_bounds s (List.mem_flatMap.mpr ⟨d, hd, hs⟩)).2
        · exact fun h => (inv.cut d hd).ne_unchecked hs (hun s h)
    err := by
      intro s hs
      obtain ⟨h1, h2, h3⟩ := inv.err s hs
      have e := hspec s ((hlt s (inv.unchecked s (List.mem_append_left _ hs)).1).trans_le inv.fresh)
        (hout s (List.mem_append_left _ hs))
      exact ⟨(congrArg FileSpec.status e).trans h1, (congrArg FileSpec.nextSpec e).trans h2, h3⟩ }

end

theorem follow (inv : CrossInv fileExists W st₀ done st cuts errs) (hlt : ∀ s ∈ W, s < st₀.heap.fresh)
    (N : NewDistinct st₀.heap (Unchecked st₀.heap W)) (hs : s1 ∈ W) (hu : st.heap.status s1 = .unchecked)
    {fuel : Nat} {h' : Heap}
    (hf : followRenamings (oldNameMap W st₀.heap) s1 fuel s1 st.heap = some h') :
    (h'.nextSpec s1 = none ∧ CrossInv fileExists W st₀ (done ++ [s1])
      (PlanState.addError ⟨h', st.plan⟩ s1 .newExists) cuts (errs ++ [s1])) ∨
    ∃ path last h₁, Followed (Unchecked st₀.heap W) (oldNameMap W st₀.heap) s1 st.heap path last h₁ ∧
      LeadsTo W st₀.heap last s1 ∧ path ≠ [] ∧ h' = h₁.setNext last none ∧ h'.nextSpec s1 ≠ none := by
  have hl : LeftUnique (Leads (Unchecked st₀.heap W) (oldNameMap W st₀.heap) st.heap.newName) := by
    rw [inv.leadsTo hlt]; exact N.leftUnique
  have hs1 := inv.unchecked_of_status hlt hs hu
  have hmap : ∀ n s, oldNameMap W st₀.heap n = some s → Unchecked st₀.heap W s := fun n s h =>
    ⟨(oldNameMap_some h).1, (oldNameMap_some h).2.1⟩
  cases followRenamings_end hl hmap (.nil _ _ s1 st.heap) hs1 hf with
  | dead path last h₁ f hdead heq =>
    subst heq
    rw [inv.leadsTo hlt] at hdead
    exact .inl ⟨Function.update_self .., inv.reject hlt hs hu f hdead⟩
  | ring path last h₁ f hback heq =>
    subst heq
    rw [inv.leadsTo hlt] at hback
    have hw := inv.walk hlt f
    have hne : path ≠ [] := by
      rintro rfl
      obtain rfl : s1 = last := hw
      exact N.old_ne s1 hs1 hback.name
    refine .inr ⟨path, last, h₁, f, hback, hne, rfl, ?_⟩
    have hlinks := (f.ring_links (hw.nodup N.leftUnique f.notMem)).1
    cases path with
    | nil => exact absurd rfl hne
    | cons r path => rw [hlinks.1]; exact Option.some_ne_none r

theorem resolve (inv : CrossInv fileExists W st₀ done st cuts errs) (hlt : ∀ s ∈ W, s < st₀.heap.fresh)
    (N : NewDistinct st₀.heap (Unchecked st₀.heap W)) (hs : s1 ∈ W) (hu : st.heap.status s1 = .unchecked)
    {path : List SpecId} {last : SpecId} {h₁ : Heap}
    (f : Followed (Unchecked st₀.heap W) (oldNameMap W st₀.heap) s1 st.heap path last h₁)
    (hback : LeadsTo W st₀.heap last s1) (hne : path ≠ []) {fuel : Nat} {tmpName : CString}
    (htmp : findTmpName fileExists (newNameMap W st₀.heap) (h₁.oldName s1) fuel 1 = some tmpName)
    (hr : resolveCircular fuel tmpName s1 ⟨h₁.setNext last none, st.plan⟩ = some st') :
    ∃ c, CrossInv fileExists W st₀ (done ++ [s1]) st' (c :: cuts) errs := by
  have hnd := (inv.walk hlt f).nodup N.leftUnique f.notMem
  obtain ⟨⟨n, hn⟩, hfree, hnew⟩ := findTmpName_some htmp
  have hold : h₁.oldName s1 = st₀.heap.oldName s1 :=
    (congrFun f.oldName_eq s1).trans (inv.oldName s1 (hlt s1 hs))
  have hlt' : ∀ s ∈ s1 :: path, s < h₁.fresh := fun s h =>
    inv.lt_of_mem hlt (inv.unchecked_of_status hlt hs hu) f h
  let c : Cut := ⟨s1, path, h₁.fresh, h₁.fresh + 1, tmpName⟩
  have r : Resolved c ⟨h₁.setNext last none, st.plan⟩ st' :=
    resolveCircular_some (c := c) rfl rfl hlt' hnd hne (f.ring_links hnd).1 (f.ring_links hnd).2 hr
  exact ⟨c, inv.addCut (c := c) hlt N hs hu f hback hne ⟨n, hold ▸ hn⟩ hfree hnew r⟩

end CrossInv

section
variable {fileExists : CString → Bool} {W done rest errs : List SpecId} {st₀ st st' : PlanState}
  {cuts : List Cut}

theorem crossReferenceLoop_inv (hlt : ∀ s ∈ W, s < st₀.heap.fresh)
    (N : NewDistinct st₀.heap (Unchecked st₀.heap W)) {fuel : Nat} (hrest : ∀ s ∈ rest, s ∈ W)
    (inv : CrossInv fileExists W st₀ done st cuts errs)
    (h : crossReferenceLoop fuel fileExists (oldNameMap W st₀.heap) (newNameMap W st₀.heap) rest st =
      some st') : ∃ cuts' errs', CrossInv fileExists W st₀ (done ++ rest) st' cuts' errs' := by
  induction rest generalizing done st cuts errs with
  | nil => cases h; exact ⟨cuts, errs, by simpa using inv⟩
  | cons s1 rest ih =>
    have hs₁ := hrest s1 (by simp)
    have hrest' : ∀ s ∈ rest, s ∈ W := fun s h => hrest s (List.mem_cons_of_mem _ h)
    rw [List.append_cons]
    rw [crossReferenceLoop] at h
    split at h
    · exact ih hrest' (inv.skip hlt hs₁ ‹_›) h
    · rename_i hu
      rw [not_not] at hu
      obtain ⟨h', hf, h⟩ := Option.bind_eq_some_iff.mp h
      rcases inv.follow hlt N hs₁ hu hf with ⟨hnone, inv'⟩ | ⟨path, last, h₁, f, hback, hne, rfl, hsome⟩
      · rw [if_pos hnone] at h
        exact ih hrest' inv' h
      · rw [if_neg hsome] at h
        obtain ⟨tmpName, htmp, h⟩ := Option.bind_eq_some_iff.mp h
        obtain ⟨st₁, hst₁, h⟩ := Option.bind_eq_some_iff.mp h
        obtain ⟨c, inv'⟩ := inv.resolve hlt N hs₁ hu f hback hne htmp hst₁
        exact ih hrest' inv' h

theorem crossReferenceLoop_isSome (hlt : ∀ s ∈ W, s < st₀.heap.fresh)
    (N : NewDistinct st₀.heap (Unchecked st₀.heap W)) {fuel : Nat} (hW : W.length < fuel) {F : List CString}
    (hF : ∀ n, (fileExists n || (newNameMap W st₀.heap).contains n) = true → n ∈ F) (hlen : F.length < fuel)
    (hrest : ∀ s ∈ rest, s ∈ W) (inv : CrossInv fileExists W st₀ done st cuts errs) :
    (crossReferenceLoop fuel fileExists (oldNameMap W st₀.heap) (newNameMap W st₀.heap) rest st).isSome =
      true := by
  induction rest generalizing done st cuts errs with
  | nil => rfl
  | cons s1 rest ih =>
    have hs₁ := hrest s1 (by simp)
    have hrest' : ∀ s ∈ rest, s ∈ W := fun s h => hrest s (List.mem_cons_of_mem _ h)
    rw [crossReferenceLoop]
    split
    · exact ih hrest' (inv.skip hlt hs₁ ‹_›)
    · rename_i hu
      rw [not_not] at hu
      have hl : LeftUnique (Leads (Unchecked st₀.heap W) (oldNameMap W st₀.heap) st.heap.newName) := by
        rw [inv.leadsTo hlt]; exact N.leftUnique
      have hfollow : (followRenamings (oldNameMap W st₀.heap) s1 fuel s1 st.heap).isSome = true := by
        refine followRenamings_isSome (U := W) hl
          (fun n s h => ⟨(oldNameMap_some h).1, (oldNameMap_some h).2.1⟩)
          (fun a b h => (oldNameMap_some h.2).1) (.nil _ _ s1 st.heap)
          (inv.unchecked_of_status hlt hs₁ hu) ?_
        simpa using hW
      obtain ⟨h', hf⟩ := Option.isSome_iff_exists.mp hfollow
      simp only [hf, Option.bind_eq_bind, Option.bind_some]
      rcases inv.follow hlt N hs₁ hu hf with ⟨hnone, inv'⟩ | ⟨path, last, h₁, f, hback, hne, rfl, hsome⟩
      · rw [if_pos hnone]
        exact ih hrest' inv'
      · rw [if_neg hsome]
        have hw := inv.walk hlt f
        have hnd := hw.nodup N.leftUnique f.notMem
        have hlt' : ∀ s ∈ s1 :: path, s < h₁.fresh := fun s hs =>
          inv.lt_of_mem hlt (inv.unchecked_of_status hlt hs₁ hu) f hs
        have hpath := hw.length_le N.leftUnique (U := W) (fun a b h => (oldNameMap_some h.2).1) f.notMem
        have hfind : (findTmpName fileExists (newNameMap W st₀.heap) (h₁.oldName s1) fuel 1).isSome = true :=
          findTmpName_isSome hF hlen 1
        obtain ⟨tmpName, htmp⟩ := Option.isSome_iff_exists.mp hfind
        have hresolve : (resolveCircular fuel tmpName s1 ⟨h₁.setNext last none, st.plan⟩).isSome = true :=
          resolveCircular_isSome tmpName hlt' hnd hne (f.ring_links hnd).1 (f.ring_links hnd).2
            (hpath.trans_lt hW)
        obtain ⟨st₁, hst₁⟩ := Option.isSome_iff_exists.mp hresolve
        rw [show (h₁.setNext last none).oldName s1 = h₁.oldName s1 from rfl, htmp, Option.bind_some, hst₁,
          Option.bind_some]
        obtain ⟨c, inv'⟩ := inv.resolve hlt N hs₁ hu f hback hne htmp hst₁
        exact ih hrest' inv'

end

section
variable {fileExists : CString → Bool} {W : List SpecId} {st₀ st : PlanState}

theorem crossReferenceResolve_inv (hlt : ∀ s ∈ W, s < st₀.heap.fresh)
    (N : NewDistinct st₀.heap (Unchecked st₀.heap W)) {fuel : Nat}
    (h : crossReferenceResolve fuel fileExists W st₀ = some st) :
    ∃ cuts errs, CrossInv fileExists W st₀ W st cuts errs := by
  have inv : CrossInv fileExists W st₀ [] st₀ [] [] := .nil fileExists W st₀
  exact crossReferenceLoop_inv hlt N (fun _ h => h) inv h

theorem crossReferenceResolve_isSome (hlt : ∀ s ∈ W, s < st₀.heap.fresh)
    (N : NewDistinct st₀.heap (Unchecked st₀.heap W)) {fuel : Nat} {F : List CString}
    (hF : ∀ n, fileExists n = true → n ∈ F) (hlen : F.length + W.length < fuel) :
    (crossReferenceResolve fuel fileExists W st₀).isSome = true := by
  refine crossReferenceLoop_isSome hlt N (by omega) (F := F ++ W.map st₀.heap.newName) (fun n hn => ?_)
    (by simpa using hlen) (fun _ h => h) (.nil fileExists W st₀)
  rcases Bool.or_eq_true_iff.mp hn with hn | hn
  · exact List.mem_append_left _ (hF n hn)
  · obtain ⟨s, hs, _, rfl⟩ := newNameMap_contains.mp hn
    exact List.mem_append_right _ (List.mem_map_of_mem hs)

end

end Renameutils
