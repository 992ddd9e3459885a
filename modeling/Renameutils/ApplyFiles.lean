import Renameutils.Lib.Relocate
import Renameutils.PlanSound

/-!
# Where the files are while a plan is applied

`Moving` is the invariant of any sequence of `apply_plan` runs on the plan of a fresh list: each planned
file is at its old name, at the temporary name of its circular set, or at its new name, as the renames
that are left in `plan->ok` say. When none is left every file has its new name
(`makePlan_applyRuns`).
-/

namespace Renameutils
open Chain

/-- `make_plan` put `s` in neither `error` nor `no_change`. -/
structure Planned (W : List SpecId) (plan : ApplyPlan) (s : SpecId) : Prop where
  mem : s ∈ W
  not_error : s ∉ plan.error
  not_noChange : s ∉ plan.noChange

namespace Ordered
variable {fileExists : CString → Bool} {W : List SpecId} {h : Heap} {st : PlanState} {cuts : List Cut}
  {ts : TopologicState} {T pending errs : List SpecId} {s : SpecId}

theorem created_unique (o : Ordered fileExists W h ts T pending cuts errs st) {c d : Cut} (hc : c ∈ cuts)
    (hd : d ∈ cuts) (hs : s ∈ c.created) (hs' : s ∈ d.created) : c = d := by
  by_contra hne
  have hsymm : Std.Symm (Function.onFun List.Disjoint Cut.created) := ⟨fun _ _ h => List.disjoint_symm h⟩
  exact (List.nodup_flatMap.mp o.cross.created_nodup).2.forall hc hd hne hs hs'

theorem copy_ne_tmp (o : Ordered fileExists W h ts T pending cuts errs st) {c d : Cut} (hc : c ∈ cuts)
    (hd : d ∈ cuts) : c.copy ≠ d.tmp := by
  intro heq
  obtain rfl := o.created_unique hc hd (s := c.copy) c.copy_mem_created (heq ▸ d.tmp_mem_created)
  have := (List.nodup_flatMap.mp o.cross.created_nodup).1 c hc
  simp [Cut.created, heq] at this

theorem mem_ok_cases (o : Ordered fileExists W h ts T pending cuts errs st) (hnd : W.Nodup)
    (hs : s ∈ st.plan.ok) : s ∈ W ∨ ∃ c ∈ cuts, s = c.tmp ∨ s = c.copy := by
  rcases (o.mem_ok_iff hnd).mp hs with ⟨hW, _⟩ | hT | ⟨c, hc, hr⟩
  · exact .inl hW
  · exact .inl (o.unchecked_T hnd hT).1
  · rcases Cut.mem_renames.mp hr with rfl | hr | rfl
    · exact .inr ⟨c, hc, .inl rfl⟩
    · exact .inl (o.unchecked_members hnd hc (List.mem_cons_of_mem _ hr)).2.2.1
    · exact .inr ⟨c, hc, .inr rfl⟩

theorem member_notMem_ok (o : Ordered fileExists W h ts T pending cuts errs st) (hnd : W.Nodup)
    (hlt : ∀ s ∈ W, s < h.fresh) {c : Cut} (hc : c ∈ cuts) : c.member ∉ st.plan.ok := by
  have f := o.filed hnd hlt
  rw [f.ok_iff]
  rintro (⟨_, hn, _⟩ | hf)
  · exact hn (List.mem_map_of_mem hc)
  · exact f.notMem_freeSpec (o.unchecked_members hnd hc List.mem_cons_self).2.2.1 hf

theorem planned_cases (o : Ordered fileExists W h ts T pending cuts errs st) (hnd : W.Nodup)
    (hlt : ∀ s ∈ W, s < h.fresh) (hun : ∀ s ∈ W, h.status s = .unchecked) (hs : Planned W st.plan s) :
    Unchecked (scanned fileExists W h).heap W s ∧ (s ∈ st.plan.ok ∨ ∃ c ∈ cuts, c.member = s) := by
  have f := o.filed hnd hlt
  have hlt' : ∀ s ∈ W, s < ts.st.heap.fresh := fun s hs => o.fresh_eq hnd ▸ hlt s hs
  by_cases hm : s ∈ cuts.map Cut.member
  · obtain ⟨c, hc, rfl⟩ := List.mem_map.mp hm
    exact ⟨(o.unchecked_members hnd hc List.mem_cons_self).1, .inr ⟨c, hc, rfl⟩⟩
  · have hspecs := (f.mem_specs (o.cross.checked hlt')).mpr (.inl ⟨hs.mem, hm⟩)
    have hok : s ∈ st.plan.ok := by
      rcases List.mem_append.mp hspecs with hs' | hs'
      · exact (List.mem_append.mp hs').resolve_right hs.not_error
      · exact absurd hs' hs.not_noChange
    refine ⟨?_, .inl hok⟩
    rcases (o.mem_ok_iff hnd).mp hok with ⟨hW, h'⟩ | hT | ⟨c, hc, hr⟩
    · rw [hun s hW] at h'; cases h'
    · exact o.topologic.base.unchecked_of_mem hT
    · rcases Cut.mem_renames.mp hr with rfl | hr | rfl
      · exact absurd hs.mem (o.created_notMem hnd hlt hc c.tmp_mem_created)
      · exact (o.unchecked_members hnd hc (List.mem_cons_of_mem _ hr)).1
      · exact absurd hs.mem (o.created_notMem hnd hlt hc c.copy_mem_created)

theorem planned_of_ok (o : Ordered fileExists W h ts T pending cuts errs st) (hnd : W.Nodup)
    (hlt : ∀ s ∈ W, s < h.fresh) (hW : s ∈ W)
    (hs : (st.heap.status s).isOk = true) : Planned W st.plan s := by
  have f := o.filed hnd hlt
  refine ⟨hW, fun he => ?_, fun hn => ?_⟩
  · have := ((f.error_iff s).mp he).2
    cases hst : st.heap.status s <;> simp_all [FileSpecStatus.isOk, FileSpecStatus.isError]
  · rw [((f.noChange_iff s).mp hn).2] at hs; cases hs

end Ordered

/-- The rename `s` moves the file of the listed spec `v`: its own, or that of the member that its circular
set renames twice. -/
inductive Owns (W : List SpecId) (cuts : List Cut) (ok : List SpecId) (s : SpecId) : SpecId → Prop where
  | own (hW : s ∈ W) : Owns W cuts ok s s
  | toTmp {c : Cut} (hc : c ∈ cuts) (hs : s = c.tmp) : Owns W cuts ok s c.member
  | fromTmp {c : Cut} (hc : c ∈ cuts) (hs : s = c.copy) (htmp : c.tmp ∉ ok) : Owns W cuts ok s c.member

namespace Owns
variable {fileExists : CString → Bool} {W : List SpecId} {h : Heap} {st : PlanState} {cuts : List Cut}
  {ts : TopologicState} {T pending errs ok : List SpecId} {s v : SpecId} {d : Cut}

/-- The file of a spec of the plan is moved by that spec, not by the two of a circular set. -/
theorem eq_of_ok (hv : Owns W cuts ok s v) (o : Ordered fileExists W h ts T pending cuts errs st)
    (hnd : W.Nodup) (hlt : ∀ s ∈ W, s < h.fresh) (hok : v ∈ st.plan.ok) : v = s := by
  cases hv with
  | own => rfl
  | toTmp hc => exact absurd hok (o.member_notMem_ok hnd hlt hc)
  | fromTmp hc => exact absurd hok (o.member_notMem_ok hnd hlt hc)

theorem of_mem (hv : Owns W cuts ok s v) (o : Ordered fileExists W h ts T pending cuts errs st)
    (hnd : W.Nodup) (hlt : ∀ s ∈ W, s < h.fresh) (hs : s ∈ W) : v = s := by
  cases hv with
  | own => rfl
  | @toTmp c hc heq => exact absurd hs (o.created_notMem hnd hlt hc (heq ▸ c.tmp_mem_created))
  | @fromTmp c hc heq => exact absurd hs (o.created_notMem hnd hlt hc (heq ▸ c.copy_mem_created))

theorem of_created (hv : Owns W cuts ok s v) (o : Ordered fileExists W h ts T pending cuts errs st)
    (hnd : W.Nodup) (hlt : ∀ s ∈ W, s < h.fresh) (hd : d ∈ cuts) (hs : s ∈ d.created) : v = d.member := by
  cases hv with
  | own hW => exact absurd hW (o.created_notMem hnd hlt hd hs)
  | @toTmp c hc heq => rw [o.created_unique hc hd (heq ▸ c.tmp_mem_created) hs]
  | @fromTmp c hc heq => rw [o.created_unique hc hd (heq ▸ c.copy_mem_created) hs]

/-- Only the two renames of its set move the file of a member that is renamed twice. -/
theorem of_member (hv : Owns W cuts ok s v) (o : Ordered fileExists W h ts T pending cuts errs st)
    (hnd : W.Nodup) (hlt : ∀ s ∈ W, s < h.fresh) (hd : d ∈ cuts) (hs : s ∈ st.plan.ok)
    (hm : d.member = v) : s = d.tmp ∨ s = d.copy ∧ d.tmp ∉ ok := by
  cases hv with
  | own => exact absurd hs (hm ▸ o.member_notMem_ok hnd hlt hd)
  | @toTmp c hc heq =>
    obtain rfl := o.cut_unique hd hc (s := d.member) List.mem_cons_self (hm ▸ List.mem_cons_self)
    exact .inl heq
  | @fromTmp c hc heq htmp =>
    obtain rfl := o.cut_unique hd hc (s := d.member) List.mem_cons_self (hm ▸ List.mem_cons_self)
    exact .inr ⟨heq, htmp⟩

end Owns

/-- The files while the plan of `st` is applied: `ok` is what is left of `plan->ok` in the state `w`, and
`loc s` is where the file of the planned spec `s` is. -/
structure Moving {φ : Type} (W : List SpecId) (h : Heap) (st : PlanState) (cuts : List Cut)
    (fs₀ : FileSys φ) (loc : SpecId → CString) (ok : List SpecId) (w : ApplyState φ) : Prop where
  safe : Safe w.fs w.heap ok
  sorted : Sorted w.heap ok
  oldName : w.heap.oldName = st.heap.oldName
  newName : w.heap.newName = st.heap.newName
  subset : ∀ s ∈ ok, s ∈ st.plan.ok
  mirror : ∀ f ∈ ok, ∀ s ∈ ok, w.heap.nextSpec f = some s → w.heap.prevSpec s = some f
  relocated : Table.Relocated (Planned W st.plan) h.oldName fs₀ loc w.fs
  regular : ∀ s ∈ ok, s ∈ W → loc s = h.oldName s
  tmp : ∀ c ∈ cuts, c.tmp ∈ ok → loc c.member = h.oldName c.member ∧ (∀ x ∈ c.renames, x ∈ ok) ∧
    Walk (Linked w.heap) c.tmp (c.ring.reverse ++ [c.copy]) c.copy
  copy : ∀ c ∈ cuts, c.copy ∈ ok → c.tmp ∉ ok → loc c.member = c.tmpName
  done : ∀ s, Planned W st.plan s → s ∉ ok → (∀ c ∈ cuts, c.member = s → c.copy ∉ ok) →
    loc s = h.newName s

namespace Moving
variable {φ : Type} {fs₀ : FileSys φ} {W : List SpecId} {h : Heap} {st : PlanState} {cuts : List Cut}
  {ts : TopologicState} {T pending errs kept rest ok : List SpecId} {s : SpecId} {loc : SpecId → CString}
  {w : ApplyState φ}

theorem start (o : Ordered fs₀.contains W h ts T pending cuts errs st) (hnd : W.Nodup)
    (hlt : ∀ s ∈ W, s < h.fresh) (hun : ∀ s ∈ W, h.status s = .unchecked)
    (hprev : ∀ s ∈ W, h.prevSpec s = none) (hnext : ∀ s ∈ W, h.nextSpec s = none)
    (hold : ∀ s ∈ W, ∀ t ∈ W, h.oldName s = h.oldName t → s = t) :
    Moving W h st cuts fs₀ h.oldName st.plan.ok ⟨st.heap, W, fs₀⟩ := by
  have D : Distinct fs₀.contains (scanned fs₀.contains W h).heap _ := distinct_scanned hnd hold
  have htmp : ∀ c ∈ cuts, c.tmp ∈ st.plan.ok := fun c hc =>
    (o.mem_ok_iff hnd).mpr (.inr (.inr ⟨c, hc, c.tmp_mem_renames⟩))
  refine ⟨o.safe D hnd hlt (carriedNames_fresh hun) (carriedFree_fresh hun fs₀ hnext),
    o.sorted D hnd hlt (carriedOrder_fresh hun hprev), rfl, rfl, fun _ hs => hs, fun f hf s _ hn => ?_,
    .refl (fun s t hs ht => hold s hs.mem t ht.mem) (fun s hs => ?_), fun _ _ _ => rfl,
    fun c hc _ => ⟨rfl, fun x hx => ?_, (o.cross.cut c hc).linked⟩, fun c hc _ hno => absurd (htmp c hc) hno,
    fun s hs hno hcopy => ?_⟩
  · rcases o.next_eq D hnd hlt hf hn with ⟨hW, _, hn'⟩ | ⟨_, _, hp⟩
    · rw [hnext f hW] at hn'; cases hn'
    · exact hp
  · have hun' := (o.planned_cases hnd hlt hun hs).1
    exact Option.isSome_iff_exists.mp ((unchecked_scanned_iff hnd).mp hun').2.2.2.1
  · exact (o.mem_ok_iff hnd).mpr (.inr (.inr ⟨c, hc, hx⟩))
  · rcases (o.planned_cases hnd hlt hun hs).2 with hok | ⟨c, hc, hm⟩
    · exact absurd hok hno
    · exact absurd ((o.mem_ok_iff hnd).mpr (.inr (.inr ⟨c, hc, c.copy_mem_renames⟩))) (hcopy c hc hm)

theorem eq_tmp_of_first (m : Moving W h st cuts fs₀ loc ok w) {c : Cut} (hc : c ∈ cuts) (htmp : c.tmp ∈ ok)
    (hs : s ∈ c.renames) (hp : w.heap.prevSpec s = none) : s = c.tmp := by
  rcases List.mem_cons.mp hs with rfl | hs
  · rfl
  · obtain ⟨y, _, hl⟩ := (m.tmp c hc htmp).2.2.before hs
    rw [hl.2] at hp; cases hp

/-- The spec whose file the rename `s` moves next, and where that file is. -/
theorem owner (m : Moving W h st cuts fs₀ loc ok w) (o : Ordered fs₀.contains W h ts T pending cuts errs st)
    (hnd : W.Nodup) (hlt : ∀ s ∈ W, s < h.fresh) (hs : s ∈ ok) (hp : w.heap.prevSpec s = none) :
    ∃ v, Planned W st.plan v ∧ loc v = w.heap.oldName s ∧ Owns W cuts ok s v := by
  have hmember : ∀ c ∈ cuts, Planned W st.plan c.member := fun c hc =>
    o.planned_of_ok hnd hlt (o.unchecked_members hnd hc List.mem_cons_self).2.2.1
      (by rw [(o.cross.cut c hc).status_member]; rfl)
  rw [m.oldName]
  rcases o.mem_ok_cases hnd (m.subset s hs) with hW | ⟨c, hc, rfl | rfl⟩
  · refine ⟨s, o.planned_of_ok hnd hlt hW ((o.filed hnd hlt).isOk_of_mem (m.subset s hs)), ?_, .own hW⟩
    rw [m.regular s hs hW, o.oldName_eq hnd (hlt s hW)]
  · refine ⟨c.member, hmember c hc, ?_, .toTmp hc rfl⟩
    rw [(m.tmp c hc hs).1, (o.cross.cut c hc).oldName_tmp, o.topologic.base.oldName, (scanned_only hnd).oldName]
  · have htmp : c.tmp ∉ ok := fun htmp =>
      o.copy_ne_tmp hc hc (m.eq_tmp_of_first hc htmp c.copy_mem_renames hp)
    refine ⟨c.member, hmember c hc, ?_, .fromTmp hc rfl htmp⟩
    rw [m.copy c hc hs htmp, (o.cross.cut c hc).oldName_copy]

theorem prevSpec_complete (m : Moving W h st cuts fs₀ loc ok w) (hs : s ∈ ok)
    (hp : w.heap.prevSpec s = none) {t p : SpecId} (ht : t ∈ ok) (htp : w.heap.prevSpec t = some p)
    (hps : p ≠ s) : (w.heap.freeFileSpec s).prevSpec t = some p := by
  rw [(freeFileSpec_eq hp).2, if_neg, htp]
  intro hn
  rw [m.mirror s hs t ht hn] at htp
  exact hps (Option.some.inj htp).symm

/-- The file of the owner `v` of the rename `s` is at the new name of `s` now. If `s` was the last of its
renames, that is its own. -/
theorem newName_owner (m : Moving W h st cuts fs₀ loc ok w)
    (o : Ordered fs₀.contains W h ts T pending cuts errs st) (hnd : W.Nodup) (hlt : ∀ s ∈ W, s < h.fresh)
    (hs : s ∈ ok) {v : SpecId} (hv : Owns W cuts ok s v)
    (hlast : ∀ c ∈ cuts, c.member = v → ¬ (c.copy ∈ ok ∧ c.copy ≠ s)) : w.heap.newName s = h.newName v := by
  rw [m.newName]
  cases hv with
  | own hW => exact o.newName_eq hnd (hlt s hW)
  | @toTmp c hc heq =>
    refine absurd ⟨(m.tmp c hc (heq ▸ hs)).2.1 _ c.copy_mem_renames, ?_⟩ (hlast c hc rfl)
    exact heq ▸ o.copy_ne_tmp hc hc
  | @fromTmp c hc heq =>
    rw [heq, (o.cross.cut c hc).newName_copy, o.topologic.base.newName, (scanned_only hnd).newName]

theorem complete (m : Moving W h st cuts fs₀ loc (kept ++ s :: rest) w)
    (o : Ordered fs₀.contains W h ts T pending cuts errs st) (hnd : W.Nodup) (hlt : ∀ s ∈ W, s < h.fresh)
    (hp : w.heap.prevSpec s = none) {file : φ} (hfile : w.fs (w.heap.oldName s) = some file) :
    ∃ loc', Moving W h st cuts fs₀ loc' (kept ++ rest)
      (w.complete s ((w.fs.remove (w.heap.oldName s)).put (w.heap.newName s) file)) := by
  have hs : s ∈ kept ++ s :: rest := by simp
  obtain ⟨v, hv, hloc, howns⟩ := m.owner o hnd hlt hs hp
  have hsafe : Safe ((w.fs.remove (w.heap.oldName s)).put (w.heap.newName s) file)
      (w.heap.freeFileSpec s) (kept ++ rest) := m.safe.complete hp
  have hiff : ∀ t, t ∈ kept ++ rest ↔ t ∈ kept ++ s :: rest ∧ t ≠ s := fun t =>
    mem_remove_iff m.safe.nodup
  have hother : ∀ u, u ≠ v → Function.update loc v (w.heap.newName s) u = loc u := fun u hu =>
    Function.update_of_ne hu _ _
  have hself : Function.update loc v (w.heap.newName s) v = w.heap.newName s := Function.update_self ..
  refine ⟨Function.update loc v (w.heap.newName s), hsafe, m.sorted.complete hp,
    (freeFileSpec_oldName hp).trans m.oldName, (freeFileSpec_newName hp).trans m.newName,
    fun t ht => m.subset t ((hiff t).mp ht).1, fun f hf t ht hn => ?_, ?_, fun t ht hW => ?_,
    fun d hd htmp => ?_, fun d hd hcopy htmp => ?_, fun u hu hno hcopy => ?_⟩
  · have hn' : w.heap.nextSpec f = some t := by
      rw [← freeFileSpec_nextSpec hp]; exact hn
    obtain ⟨hf', hfs⟩ := (hiff f).mp hf
    have ht' := ((hiff t).mp ht).1
    exact m.prevSpec_complete hs hp ht' (m.mirror f hf' t ht' hn') hfs
  · have hr := m.relocated.move (a := file) hv (by rw [hloc]; exact hfile) (m.safe.free s hs hp)
    rwa [hloc] at hr
  · obtain ⟨ht', hts⟩ := (hiff t).mp ht
    rw [hother t, m.regular t ht' hW]
    rintro rfl
    exact hts (howns.eq_of_ok o hnd hlt (m.subset t ht'))
  · obtain ⟨htmp', hne⟩ := (hiff d.tmp).mp htmp
    obtain ⟨h1, h2, h3⟩ := m.tmp d hd htmp'
    have hsd : s ∉ d.renames := fun hr => hne (m.eq_tmp_of_first hd htmp' hr hp).symm
    refine ⟨?_, fun x hx => (hiff x).mpr ⟨h2 x hx, fun h => hsd (h ▸ hx)⟩, ?_⟩
    · rw [hother _, h1]
      intro hdv
      rcases howns.of_member o hnd hlt hd (m.subset s hs) hdv with rfl | ⟨rfl, _⟩
      · exact hsd d.tmp_mem_renames
      · exact hsd d.copy_mem_renames
    · refine h3.imp_of_mem fun x y hx hy hxy => ⟨?_, ?_⟩
      · show (w.heap.freeFileSpec s).nextSpec x = some y
        rw [freeFileSpec_nextSpec hp, hxy.1]
      · exact m.prevSpec_complete hs hp (h2 y (List.mem_cons_of_mem _ hy)) hxy.2 fun h => hsd (h ▸ hx)
  · obtain ⟨hcopy', hne⟩ := (hiff d.copy).mp hcopy
    by_cases htmp' : d.tmp ∈ kept ++ s :: rest
    · -- `s` was the first rename of the set
      obtain rfl : d.tmp = s := by
        by_contra hne; exact htmp ((hiff _).mpr ⟨htmp', hne⟩)
      rw [← howns.of_created o hnd hlt hd d.tmp_mem_created, hself, m.newName, (o.cross.cut d hd).newName_tmp]
    · rw [hother, m.copy d hd hcopy' htmp']
      intro hdv
      rcases howns.of_member o hnd hlt hd (m.subset s hs) hdv with rfl | ⟨rfl, _⟩
      · exact htmp' hs
      · exact hne rfl
  · by_cases huv : u = v
    · subst huv
      rw [hself, m.newName_owner o hnd hlt hs howns fun c hc hcu hcopy' =>
        hcopy c hc hcu ((hiff _).mpr hcopy')]
    · rw [hother u huv]
      refine m.done u hu (fun hu' => ?_) fun c hc hcu hcopy' => ?_
      · refine hno ((hiff u).mpr ⟨hu', ?_⟩)
        rintro rfl
        exact huv (howns.of_mem o hnd hlt hu.mem).symm
      · refine hcopy c hc hcu ((hiff _).mpr ⟨hcopy', ?_⟩)
        rintro rfl
        exact huv (hcu.symm.trans (howns.of_created o hnd hlt hc c.copy_mem_created).symm)

end Moving

/-- `fs'` is `fs` with every file of the planned specs renamed, and nothing else changed. -/
structure AllRenamed {φ : Type} (W : List SpecId) (h : Heap) (plan : ApplyPlan) (fs fs' : FileSys φ) :
    Prop where
  renamed : ∀ s, Planned W plan s → ∃ file, fs (h.oldName s) = some file ∧ fs' (h.newName s) = some file
  left : ∀ s, Planned W plan s → (∀ t, Planned W plan t → h.newName t ≠ h.oldName s) →
    fs' (h.oldName s) = none
  unmoved : ∀ n, (∀ s, Planned W plan s → h.oldName s ≠ n ∧ h.newName s ≠ n) → fs' n = fs n

section
variable {φ : Type} {fs₀ : FileSys φ} {W : List SpecId} {h : Heap} {st : PlanState} {cuts : List Cut}
  {ts : TopologicState} {T pending errs : List SpecId} {loc : SpecId → CString} {w : ApplyState φ}

theorem Moving.allRenamed (m : Moving W h st cuts fs₀ loc [] w) : AllRenamed W h st.plan fs₀ w.fs := by
  have hloc : ∀ s, Planned W st.plan s → loc s = h.newName s := fun s hs => m.done s hs (by simp) (by simp)
  refine ⟨fun s hs => ?_, fun s hs hno => ?_, fun n hn => ?_⟩
  · obtain ⟨file, hfile⟩ := m.relocated.start_some s hs
    exact ⟨file, hfile, by rw [← hloc s hs, m.relocated.at_loc s hs, hfile]⟩
  · refine m.relocated.left s hs fun t ht heq => hno t ht ?_
    rw [← hloc t ht, heq]
  · refine m.relocated.other n (fun s hs => (hn s hs).1) fun s hs heq => (hn s hs).2 ?_
    rw [← hloc s hs, heq]

theorem Ordered.tmpName_other (o : Ordered fs₀.contains W h ts T pending cuts errs st) (hnd : W.Nodup)
    (hlt : ∀ s ∈ W, s < h.fresh) (hun : ∀ s ∈ W, h.status s = .unchecked) {c : Cut} (hc : c ∈ cuts) :
    fs₀ c.tmpName = none ∧ ∀ s, Planned W st.plan s → h.oldName s ≠ c.tmpName ∧ h.newName s ≠ c.tmpName := by
  have hfree := (o.cross.cut c hc).tmpName_free
  refine ⟨by simpa [Table.contains] using hfree, fun s hs => ⟨fun heq => ?_, fun heq => ?_⟩⟩
  · have hex := ((unchecked_scanned_iff hnd).mp (o.planned_cases hnd hlt hun hs).1).2.2.2.1
    rw [heq, hfree] at hex; cases hex
  · exact o.tmpName_ne hnd (carriedNames_fresh hun) hc hs.mem
      (.inr (o.planned_cases hnd hlt hun hs).1) heq.symm

end

/-- A fresh qmv plan, applied any number of times with any outcome of the commands: no command is started
without its source or onto a file, and when `apply_plan` returns true all planned files have their new
names, no temporary name is left and all other files are as before. -/
theorem makePlan_applyRuns {φ : Type} {fs : FileSys φ} {F : List CString}
    (hF : ∀ n, fs.contains n = true → n ∈ F) {W : List SpecId} {h : Heap} (hnd : W.Nodup)
    (hlt : ∀ s ∈ W, s < h.fresh)
    (hfresh : ∀ s ∈ W, h.status s = .unchecked ∧ h.prevSpec s = none ∧ h.nextSpec s = none)
    (hold : ∀ s ∈ W, ∀ t ∈ W, h.oldName s = h.oldName t → s = t) :
    ∃ fuel₀, ∀ fuel ≥ fuel₀, ∃ st cuts, makePlan fuel .qmv fs.contains W h = some st ∧
      ExactlyOnce W h st cuts ∧
      ∀ envs : List ApplyEnv, let r := applyRuns .qmv false envs st.plan ⟨st.heap, W, fs⟩
        (∀ l ∈ r.launched, l.fs.contains l.oldName = true ∧ l.fs.contains l.newName = false) ∧
        ∀ env, let r' := applyPlan .qmv false env r.plan r.state
          r'.returned = true → AllRenamed W h st.plan fs r'.state.fs ∧
            ∀ c ∈ cuts, r'.state.fs.contains c.tmpName = false := by
  refine ⟨F.length + W.length + 1, fun fuel hfuel => ?_⟩
  obtain ⟨st, hst⟩ := Option.isSome_iff_exists.mp
    (makePlan_isSome hlt .qmv hF (show F.length + W.length < fuel by omega))
  obtain ⟨ts, T, pending, cuts, errs, o⟩ := makePlan_qmv hnd hlt hst
  refine ⟨st, cuts, hst, o.exactlyOnce hnd hlt, fun envs => ?_⟩
  have hun : ∀ s ∈ W, h.status s = .unchecked := fun s hs => (hfresh s hs).1
  have hstart := Moving.start o hnd hlt hun (fun s hs => (hfresh s hs).2.1) (fun s hs => (hfresh s hs).2.2) hold
  have hstep : ∀ kept s rest w fs', (∃ loc, Moving W h st cuts fs loc (kept ++ s :: rest) w) →
      (w.heap.status s).isOk = true → w.heap.prevSpec s = none → Completes .qmv false w s fs' →
      ∃ loc, Moving W h st cuts fs loc (kept ++ rest) (w.complete s fs') := by
    rintro kept s rest w _ ⟨loc, m⟩ _ hp (⟨⟨⟩⟩ | ⟨_, file, hfile⟩)
    exact m.complete o hnd hlt hp hfile
  have hlaunch : ∀ l s w, (∃ loc, Moving W h st cuts fs loc l w) → s ∈ l → (w.heap.status s).isOk = true →
      w.heap.prevSpec s = none → false = false →
      w.fs.contains (w.heap.oldName s) = true ∧ w.fs.contains (w.heap.newName s) = false := by
    rintro l s w ⟨loc, m⟩ hs _ hp _
    obtain ⟨v, hv, hloc, _⟩ := m.owner o hnd hlt hs hp
    refine ⟨?_, by simp [Table.contains, m.safe.free s hs hp]⟩
    rw [← hloc]
    exact Option.isSome_iff_exists.mpr (m.relocated.at_some hv)
  obtain ⟨⟨loc, m⟩, hl⟩ := applyRuns_rule (I := fun ok w => ∃ loc, Moving W h st cuts fs loc ok w)
    (P := fun l => l.fs.contains l.oldName = true ∧ l.fs.contains l.newName = false) hstep hlaunch envs
    ⟨h.oldName, hstart⟩
  refine ⟨hl, fun env htrue => ?_⟩
  obtain ⟨⟨loc', m'⟩, _⟩ := applyPlan_rule (I := fun ok w => ∃ loc, Moving W h st cuts fs loc ok w)
    (P := fun _ => True) hstep (fun _ _ _ _ _ _ _ _ => trivial) env ⟨loc, m⟩
  rw [m.sorted.ok_eq_nil htrue] at m'
  refine ⟨m'.allRenamed, fun c hc => ?_⟩
  obtain ⟨hnone, hne⟩ := o.tmpName_other hnd hlt hun hc
  rw [Table.contains, m'.allRenamed.unmoved c.tmpName hne, hnone]
  rfl

/-- Two files exchange their names; the first command fails at first. -/
theorem makePlan_applyRuns_swap :
    let fs : FileSys Nat := (Table.empty.put [97] 1).put [98] 2
    let h := (Heap.empty.newFileSpec ⟨[97], [98], none, none, .unchecked⟩).newFileSpec
      ⟨[98], [97], none, none, .unchecked⟩
    ∃ fuel st, makePlan fuel .qmv fs.contains [0, 1] h = some st ∧
      let r := applyRuns .qmv false [⟨true, true, fun _ => .failed⟩] st.plan ⟨st.heap, [0, 1], fs⟩
      let r' := applyPlan .qmv false ⟨true, true, fun _ => .done⟩ r.plan r.state
      r'.returned = true → AllRenamed [0, 1] h st.plan fs r'.state.fs := by
  intro fs h
  have hF : ∀ n, fs.contains n = true → n ∈ [[97], [98]] := by
    intro n hn
    simp only [fs, Table.contains, Table.put_apply, Table.empty] at hn
    split at hn
    · simp [*]
    · split at hn
      · simp [*]
      · cases hn
  obtain ⟨fuel, hfuel⟩ := makePlan_applyRuns hF (W := [0, 1]) (h := h) (by decide) (by decide) (by decide)
    (by decide)
  obtain ⟨st, _, hst, _, hruns⟩ := hfuel fuel (Nat.le_refl _)
  exact ⟨fuel, st, hst, fun htrue => ((hruns [⟨true, true, fun _ => .failed⟩]).2 _ htrue).1⟩

end Renameutils
