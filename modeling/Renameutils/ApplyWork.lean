import Renameutils.ApplyFiles

/-!
# The work list after a plan has been applied

`apply_plan` takes each spec that it completes out of `work_files` too. `Leaving` says how the two lists
and the specs go together while a run goes on. The member of a circular set that its copy stands for in
`plan->ok` is never completed: it stays in `work_files`, to be applied (`makePlan_workDone_iff`).
-/

namespace Renameutils
open Chain

/-- A run over `plan->ok` of `st` that `l` is left of: the completed specs are gone from `work_files`, and
the specs that are not in the plan are as they were. -/
structure Leaving {φ : Type} (W : List SpecId) (st : PlanState) (l : List SpecId) (w : ApplyState φ) :
    Prop where
  nodup : l.Nodup
  subset : ∀ s ∈ l, s ∈ st.plan.ok
  workFiles : w.workFiles = W.filter fun s => s ∈ l ∨ s ∉ st.plan.ok
  oldName : w.heap.oldName = st.heap.oldName
  newName : w.heap.newName = st.heap.newName
  nextSpec : w.heap.nextSpec = st.heap.nextSpec
  status : w.heap.status = st.heap.status
  prevSpec : ∀ t, t ∉ st.plan.ok → w.heap.prevSpec t = st.heap.prevSpec t

namespace Leaving
variable {φ : Type} {W l kept rest : List SpecId} {st : PlanState} {w : ApplyState φ} {s : SpecId}
  {fs : FileSys φ}

theorem start (hnd : st.plan.ok.Nodup) (fs : FileSys φ) : Leaving W st st.plan.ok ⟨st.heap, W, fs⟩ :=
  ⟨hnd, fun _ => id, by simp [em], rfl, rfl, rfl, rfl, fun _ _ => rfl⟩

theorem complete (i : Leaving W st (kept ++ s :: rest) w) (hW : W.Nodup)
    (hnext : ∀ s ∈ st.plan.ok, ∀ t, st.heap.nextSpec s = some t → t ∈ st.plan.ok)
    (hp : w.heap.prevSpec s = none) : Leaving W st (kept ++ rest) (w.complete s fs) := by
  have hs : s ∈ st.plan.ok := i.subset s (by simp)
  obtain ⟨_, hnd⟩ := List.nodup_cons.mp (List.nodup_middle.mp i.nodup)
  refine ⟨hnd, fun t ht => i.subset t ((mem_remove_iff i.nodup).mp ht).1, ?_, ?_, ?_, ?_, ?_, fun t ht => ?_⟩
  · show w.workFiles.erase s = _
    rw [i.workFiles, (hW.filter _).erase_eq_filter, List.filter_filter]
    refine List.filter_congr fun t _ => ?_
    rw [Bool.eq_iff_iff]
    simp only [Bool.and_eq_true, bne_iff_ne, decide_eq_true_eq, mem_remove_iff i.nodup]
    constructor
    · rintro ⟨hts, h | h⟩
      · exact .inl ⟨h, hts⟩
      · exact .inr h
    · rintro (⟨h, hts⟩ | h)
      · exact ⟨hts, .inl h⟩
      · exact ⟨fun hts => h (hts ▸ hs), .inr h⟩
  · exact (freeFileSpec_oldName hp).trans i.oldName
  · exact (freeFileSpec_newName hp).trans i.newName
  · exact (freeFileSpec_nextSpec hp).trans i.nextSpec
  · exact (freeFileSpec_status hp).trans i.status
  · show (w.heap.freeFileSpec s).prevSpec t = _
    rw [(freeFileSpec_eq hp).2, i.nextSpec, if_neg, i.prevSpec t ht]
    exact fun hn => ht (hnext s hs t hn)

theorem applyPlan (hW : W.Nodup) (hnd : st.plan.ok.Nodup)
    (hnext : ∀ s ∈ st.plan.ok, ∀ t, st.heap.nextSpec s = some t → t ∈ st.plan.ok) (fs : FileSys φ)
    (env : ApplyEnv) :
    let r := applyPlan .qmv false env st.plan ⟨st.heap, W, fs⟩
    Leaving W st r.plan.ok r.state :=
  (applyPlan_rule (I := fun l w => Leaving W st l w) (P := fun _ => True)
    (fun _ _ _ _ _ i _ hp _ => i.complete hW hnext hp) (fun _ _ _ _ _ _ _ _ => trivial) env
    (.start hnd fs)).1

end Leaving

/-- The state after a run over the plan of `st` whose work is done: no spec that was to be applied is left,
and those that were not are as they were. -/
structure WorkDone {φ : Type} (st : PlanState) (r : Applied φ) : Prop where
  checked : ∀ s ∈ r.state.workFiles, (r.state.heap.status s).isOk = false
  ok_nil : r.plan.ok = []
  kept : ∀ s ∈ st.plan.error ++ st.plan.noChange,
    r.state.workFiles.count s = 1 ∧ r.state.heap.spec s = st.heap.spec s

section
variable {fileExists : CString → Bool} {W : List SpecId} {h : Heap} {st : PlanState} {cuts : List Cut}
  {ts : TopologicState} {T pending errs : List SpecId} {s : SpecId}

namespace Ordered

theorem classified (o : Ordered fileExists W h ts T pending cuts errs st) (hnd : W.Nodup)
    (hlt : ∀ s ∈ W, s < h.fresh) (hun : ∀ s ∈ W, h.status s = .unchecked)
    (hold : ∀ s ∈ W, ∀ t ∈ W, h.oldName s = h.oldName t → s = t) (hs : s ∈ W) :
    Classified fileExists W h st cuts s := by
  by_cases hR : Remaining fileExists W h s
  · exact o.classified_of_remaining hnd hlt hun hold hR
  · exact o.classified_of_scanned hnd hlt hun hs hR

theorem cuts_eq_nil_iff (o : Ordered fileExists W h ts T pending cuts errs st) (hnd : W.Nodup)
    (hlt : ∀ s ∈ W, s < h.fresh) (hun : ∀ s ∈ W, h.status s = .unchecked)
    (hold : ∀ s ∈ W, ∀ t ∈ W, h.oldName s = h.oldName t → s = t) :
    cuts = [] ↔ ∀ s, Remaining fileExists W h s → ¬ Returns (Onto fileExists W h) s := by
  constructor
  · rintro rfl s hR hret
    obtain ⟨c, hc, _⟩ := (o.classified hnd hlt hun hold hR.mem).circular.mpr ⟨hR, hret⟩
    cases hc
  · intro hno
    refine List.eq_nil_iff_forall_not_mem.mpr fun c hc => ?_
    have hW := (o.unchecked_members hnd hc List.mem_cons_self).2.2.1
    obtain ⟨hR, hret⟩ := (o.classified hnd hlt hun hold hW).circular.mp ⟨c, hc, List.mem_cons_self⟩
    exact hno c.member hR hret

end Ordered

theorem Ordered.workDone_iff {φ : Type} (o : Ordered fileExists W h ts T pending cuts errs st)
    (hnd : W.Nodup) (hlt : ∀ s ∈ W, s < h.fresh) {r : Applied φ} (i : Leaving W st r.plan.ok r.state)
    (hnil : r.plan.ok = []) : WorkDone st r ↔ cuts = [] := by
  have f := o.filed hnd hlt
  have hmem : ∀ s, s ∈ r.state.workFiles ↔ s ∈ W ∧ s ∉ st.plan.ok := by
    intro s
    rw [i.workFiles, hnil]
    simp
  have hout : ∀ s ∈ st.plan.error ++ st.plan.noChange, s ∈ W ∧ s ∉ st.plan.ok := by
    intro s hs
    have hW : s ∈ W := (List.mem_append.mp hs).elim (fun h => ((f.error_iff s).mp h).1)
      fun h => ((f.noChange_iff s).mp h).1
    refine ⟨hW, fun hok => ?_⟩
    have hst := f.isOk_of_mem hok
    rcases List.mem_append.mp hs with hs | hs
    · have he := ((f.error_iff s).mp hs).2
      cases hx : st.heap.status s <;> simp_all [FileSpecStatus.isOk, FileSpecStatus.isError]
    · rw [((f.noChange_iff s).mp hs).2] at hst; cases hst
  constructor
  · intro d
    refine List.eq_nil_iff_forall_not_mem.mpr fun c hc => ?_
    have hm : c.member ∈ r.state.workFiles := (hmem _).mpr
      ⟨(o.unchecked_members hnd hc List.mem_cons_self).2.2.1, o.member_notMem_ok hnd hlt hc⟩
    have hst := d.checked c.member hm
    rw [i.status, (o.cross.cut c hc).status_member] at hst
    cases hst
  · intro hcuts
    refine ⟨fun s hs => ?_, hnil, fun s hs => ?_⟩
    · obtain ⟨hW, hno⟩ := (hmem s).mp hs
      rw [f.ok_iff, hcuts] at hno
      simpa [i.status, hW, f.notMem_freeSpec hW] using hno
    · obtain ⟨hW, hno⟩ := hout s hs
      refine ⟨List.count_eq_one_of_mem ?_ ((hmem s).mpr ⟨hW, hno⟩), ?_⟩
      · rw [i.workFiles]; exact hnd.filter _
      · simp only [Heap.spec, i.oldName, i.newName, i.nextSpec, i.status, i.prevSpec s hno]

end

/-- The plan of a fresh list in qmv mode, and a run over it in which every command succeeds: what is
renamed leaves the work list if and only if no renamings make a circle. -/
theorem makePlan_workDone_iff {φ : Type} (fs : FileSys φ) {W : List SpecId} {h : Heap} (hnd : W.Nodup)
    (hlt : ∀ s ∈ W, s < h.fresh)
    (hfresh : ∀ s ∈ W, h.status s = .unchecked ∧ h.prevSpec s = none ∧ h.nextSpec s = none)
    (hold : ∀ s ∈ W, ∀ t ∈ W, h.oldName s = h.oldName t → s = t) :
    (∀ fuel st, makePlan fuel .qmv fs.contains W h = some st →
      ∀ env : ApplyEnv, env.cwdTo = true →
        (applyLoop .qmv false st.plan.ok env.outcome ⟨st.heap, W, fs⟩).fail = false →
        (WorkDone st (applyPlan .qmv false env st.plan ⟨st.heap, W, fs⟩) ↔
          ∀ s, Remaining fs.contains W h s → ¬ Returns (Onto fs.contains W h) s)) ∧
    ∀ F : List CString, (∀ n, fs.contains n = true → n ∈ F) →
      ∃ fuel₀, ∀ fuel ≥ fuel₀, makePlan fuel .qmv fs.contains W h ≠ none := by
  refine ⟨fun fuel st hst env hto hsucc => ?_, fun F hF => ⟨F.length + W.length + 1, fun fuel hfuel => ?_⟩⟩
  · obtain ⟨ts, T, pending, cuts, errs, o⟩ := makePlan_qmv hnd hlt hst
    have hun : ∀ s ∈ W, h.status s = .unchecked := fun s hs => (hfresh s hs).1
    have D : Distinct fs.contains (scanned fs.contains W h).heap _ := distinct_scanned hnd hold
    have hsorted : Sorted st.heap st.plan.ok :=
      o.sorted D hnd hlt (carriedOrder_fresh hun fun s hs => (hfresh s hs).2.1)
    have hnext : ∀ s ∈ st.plan.ok, ∀ t, st.heap.nextSpec s = some t → t ∈ st.plan.ok := by
      intro s hs t hn
      rcases o.next_eq D hnd hlt hs hn with ⟨hW, _, hn'⟩ | ⟨_, ht, _⟩
      · rw [(hfresh s hW).2.2] at hn'; cases hn'
      · exact ht
    have hnil : (applyPlan .qmv false env st.plan ⟨st.heap, W, fs⟩).plan.ok = [] := by
      unfold applyPlan
      split
      · assumption
      · simp only [hto, Bool.not_true, Bool.false_eq_true, if_false]
        exact hsorted.kept_eq_nil hsucc
    rw [o.workDone_iff hnd hlt (Leaving.applyPlan hnd hsorted.nodup hnext fs env) hnil,
      o.cuts_eq_nil_iff hnd hlt hun hold]
  · exact Option.isSome_iff_ne_none.mp (makePlan_isSome hlt .qmv hF (by omega))

/-- A chain of two renames and a file that stays: the chain leaves the work list. -/
theorem makePlan_workDone_chain :
    let fs : FileSys Nat := ((Table.empty.put [97] 1).put [98] 2).put [100] 3
    let h := ((Heap.empty.newFileSpec ⟨[97], [98], none, none, .unchecked⟩).newFileSpec
      ⟨[98], [99], none, none, .unchecked⟩).newFileSpec ⟨[100], [100], none, none, .unchecked⟩
    let env : ApplyEnv := ⟨true, true, fun _ => .done⟩
    ∃ st, makePlan 10 .qmv fs.contains [0, 1, 2] h = some st ∧
      (applyLoop .qmv false st.plan.ok env.outcome ⟨st.heap, [0, 1, 2], fs⟩).fail = false ∧
      (WorkDone st (applyPlan .qmv false env st.plan ⟨st.heap, [0, 1, 2], fs⟩) ↔
        ∀ s, Remaining fs.contains [0, 1, 2] h s → ¬ Returns (Onto fs.contains [0, 1, 2] h) s) := by
  intro fs h env
  have hrun : (makePlan 10 .qmv fs.contains [0, 1, 2] h).map (fun st =>
      (applyLoop .qmv false st.plan.ok env.outcome ⟨st.heap, [0, 1, 2], fs⟩).fail) = some false := by
    decide +kernel
  obtain ⟨st, hst, hsucc⟩ := Option.map_eq_some_iff.mp hrun
  exact ⟨st, hst, hsucc, (makePlan_workDone_iff fs (by decide) (by decide) (by decide) (by decide)).1 10 st
    hst env rfl hsucc⟩

/-- Two files exchange their names; the spec of the first stays in the work list, to be applied. -/
theorem makePlan_workDone_exchange :
    let fs : FileSys Nat := (Table.empty.put [97] 1).put [98] 2
    let h := (Heap.empty.newFileSpec ⟨[97], [98], none, none, .unchecked⟩).newFileSpec
      ⟨[98], [97], none, none, .unchecked⟩
    ∃ st, makePlan 10 .qmv fs.contains [0, 1] h = some st ∧
      let r := applyPlan .qmv false ⟨true, true, fun _ => .done⟩ st.plan ⟨st.heap, [0, 1], fs⟩
      r.returned = true ∧ r.state.workFiles = [0] ∧ r.state.heap.status 0 = .apply ∧ ¬ WorkDone st r := by
  intro fs h
  have hrun : (makePlan 10 .qmv fs.contains [0, 1] h).map (fun st =>
      let r := applyPlan .qmv false ⟨true, true, fun _ => .done⟩ st.plan ⟨st.heap, [0, 1], fs⟩
      (r.returned, r.state.workFiles, r.state.heap.status 0)) = some (true, [0], .apply) := by
    decide +kernel
  obtain ⟨st, hst, hr⟩ := Option.map_eq_some_iff.mp hrun
  simp only [Prod.mk.injEq] at hr
  obtain ⟨htrue, hwork, hstat⟩ := hr
  refine ⟨st, hst, htrue, hwork, hstat, fun d => ?_⟩
  have hchecked := d.checked 0 (by rw [hwork]; simp)
  rw [hstat] at hchecked; cases hchecked

end Renameutils
