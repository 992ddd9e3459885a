import Renameutils.Plan

/-!
# The scans of `make_plan`

`previous_scan`, `duplicate_scan`, `old_missing_scan`, `no_change_scan`, `new_exists_scan` and
`apply_unchecked`: what each makes of the statuses, and the invariant `Filed` that all of them keep:
the three lists of the plan hold the specs of `renames` as their statuses say, each once.
-/

namespace Renameutils

/-- `h'` differs from `h` at most in the statuses. -/
structure StatusOnly (h h' : Heap) : Prop where
  oldName : h'.oldName = h.oldName
  newName : h'.newName = h.newName
  prevSpec : h'.prevSpec = h.prevSpec
  nextSpec : h'.nextSpec = h.nextSpec
  fresh : h'.fresh = h.fresh

namespace StatusOnly
variable {h h' h'' : Heap}

theorem refl (h : Heap) : StatusOnly h h := ⟨rfl, rfl, rfl, rfl, rfl⟩

theorem trans (a : StatusOnly h h') (b : StatusOnly h' h'') : StatusOnly h h'' :=
  ⟨b.oldName.trans a.oldName, b.newName.trans a.newName, b.prevSpec.trans a.prevSpec,
    b.nextSpec.trans a.nextSpec, b.fresh.trans a.fresh⟩

theorem setStatus (a : StatusOnly h h') (s : SpecId) (x : FileSpecStatus) :
    StatusOnly h (h'.setStatus s x) :=
  ⟨a.oldName, a.newName, a.prevSpec, a.nextSpec, a.fresh⟩

end StatusOnly

theorem Heap.status_setStatus (h : Heap) (s t : SpecId) (x : FileSpecStatus) :
    (h.setStatus s x).status t = if t = s then x else h.status t := Function.update_apply ..

theorem Heap.status_setStatus_ne (h : Heap) {s t : SpecId} (x : FileSpecStatus) (ht : t ≠ s) :
    (h.setStatus s x).status t = h.status t := Function.update_of_ne ht ..

/-- The lists of the plan hold the specs of `W` as their statuses say, each once, but for those in
`cut`, which are to be applied and in no list; the specs created for the plan are in `ok`. -/
structure Filed (W cut : List SpecId) (st : PlanState) : Prop where
  ok_iff : ∀ s, s ∈ st.plan.ok ↔
    (s ∈ W ∧ s ∉ cut ∧ (st.heap.status s).isOk = true) ∨ s ∈ st.plan.freeSpec
  error_iff : ∀ s, s ∈ st.plan.error ↔ s ∈ W ∧ (st.heap.status s).isError = true
  noChange_iff : ∀ s, s ∈ st.plan.noChange ↔ s ∈ W ∧ st.heap.status s = .noChange
  ok_nodup : st.plan.ok.Nodup
  error_nodup : st.plan.error.Nodup
  noChange_nodup : st.plan.noChange.Nodup
  cut_apply : ∀ s ∈ cut, s ∈ W ∧ st.heap.status s = .apply
  allocated : ∀ s ∈ W, s < st.heap.fresh
  created : ∀ s ∈ st.plan.freeSpec, s ∉ W ∧ s < st.heap.fresh ∧ st.heap.status s = .circular

namespace Filed
variable {W cut : List SpecId} {st : PlanState} {s : SpecId} {x : FileSpecStatus}

theorem notMem_freeSpec (h : Filed W cut st) (hs : s ∈ W) : s ∉ st.plan.freeSpec :=
  fun hf => (h.created s hf).1 hs

theorem notMem_cut (h : Filed W cut st) (hu : st.heap.status s = .unchecked) : s ∉ cut := by
  intro hc
  have := (h.cut_apply s hc).2
  rw [hu] at this; cases this

theorem notMem_ok (h : Filed W cut st) (hs : s ∈ W) (hu : st.heap.status s = .unchecked) :
    s ∉ st.plan.ok := by
  rw [h.ok_iff, hu]
  rintro (⟨_, _, hx⟩ | hf)
  · cases hx
  · exact h.notMem_freeSpec hs hf

theorem cut_setStatus (h : Filed W cut st) (hu : st.heap.status s = .unchecked) (x : FileSpecStatus) :
    ∀ t ∈ cut, t ∈ W ∧ (st.heap.setStatus s x).status t = .apply := by
  intro t ht
  rw [Heap.status_setStatus_ne]
  · exact h.cut_apply t ht
  · rintro rfl; exact h.notMem_cut hu ht

theorem created_setStatus (h : Filed W cut st) (hs : s ∈ W) (x : FileSpecStatus) :
    ∀ t ∈ st.plan.freeSpec,
      t ∉ W ∧ t < st.heap.fresh ∧ (st.heap.setStatus s x).status t = .circular := by
  intro t ht
  obtain ⟨hW, hlt, hc⟩ := h.created t ht
  rw [Heap.status_setStatus_ne]
  · exact ⟨hW, hlt, hc⟩
  · rintro rfl; exact hW hs

theorem addOk (h : Filed W cut st) (hs : s ∈ W) (hu : st.heap.status s = .unchecked)
    (hx : x.isOk = true) : Filed W cut (st.addOk s x) where
  ok_iff t := by
    simp only [PlanState.addOk, List.mem_append, List.mem_singleton, h.ok_iff, Heap.status_setStatus]
    by_cases ht : t = s
    · subst ht; simp [hs, hx, h.notMem_cut hu]
    · simp [ht]
  error_iff t := by
    simp only [PlanState.addOk, h.error_iff, Heap.status_setStatus]
    by_cases ht : t = s
    · subst ht; rw [if_pos rfl, hu]; cases x <;> simp_all [FileSpecStatus.isOk, FileSpecStatus.isError]
    · rw [if_neg ht]
  noChange_iff t := by
    simp only [PlanState.addOk, h.noChange_iff, Heap.status_setStatus]
    by_cases ht : t = s
    · subst ht; rw [if_pos rfl, hu]; cases x <;> simp_all [FileSpecStatus.isOk]
    · rw [if_neg ht]
  ok_nodup := List.nodup_append.mpr ⟨h.ok_nodup, by simp, by
    intro a ha b hb hab
    rw [List.mem_singleton.mp hb] at hab
    exact h.notMem_ok hs hu (hab ▸ ha)⟩
  error_nodup := h.error_nodup
  noChange_nodup := h.noChange_nodup
  cut_apply := h.cut_setStatus hu x
  allocated := h.allocated
  created := h.created_setStatus hs x

theorem addError (h : Filed W cut st) (hs : s ∈ W) (hu : st.heap.status s = .unchecked)
    (hx : x.isError = true) : Filed W cut (st.addError s x) where
  ok_iff t := by
    simp only [PlanState.addError, h.ok_iff, Heap.status_setStatus]
    by_cases ht : t = s
    · subst ht; rw [if_pos rfl, hu]; cases x <;> simp_all [FileSpecStatus.isOk, FileSpecStatus.isError]
    · rw [if_neg ht]
  error_iff t := by
    simp only [PlanState.addError, List.mem_append, List.mem_singleton, h.error_iff,
      Heap.status_setStatus]
    by_cases ht : t = s
    · subst ht; simp [hs, hx]
    · simp [ht]
  noChange_iff t := by
    simp only [PlanState.addError, h.noChange_iff, Heap.status_setStatus]
    by_cases ht : t = s
    · subst ht; rw [if_pos rfl, hu]; cases x <;> simp_all [FileSpecStatus.isError]
    · rw [if_neg ht]
  ok_nodup := h.ok_nodup
  error_nodup := List.nodup_append.mpr ⟨h.error_nodup, by simp, by
    intro a ha b hb hab
    rw [List.mem_singleton.mp hb] at hab
    have := ((h.error_iff a).mp ha).2
    rw [hab, hu] at this; cases this⟩
  noChange_nodup := h.noChange_nodup
  cut_apply := h.cut_setStatus hu x
  allocated := h.allocated
  created := h.created_setStatus hs x

theorem addNoChange (h : Filed W cut st) (hs : s ∈ W) (hu : st.heap.status s = .unchecked) :
    Filed W cut (st.addNoChange s .noChange) where
  ok_iff t := by
    simp only [PlanState.addNoChange, h.ok_iff, Heap.status_setStatus]
    by_cases ht : t = s
    · subst ht; rw [if_pos rfl, hu]; simp [FileSpecStatus.isOk]
    · rw [if_neg ht]
  error_iff t := by
    simp only [PlanState.addNoChange, h.error_iff, Heap.status_setStatus]
    by_cases ht : t = s
    · subst ht; rw [if_pos rfl, hu]; simp [FileSpecStatus.isError]
    · rw [if_neg ht]
  noChange_iff t := by
    simp only [PlanState.addNoChange, List.mem_append, List.mem_singleton, h.noChange_iff,
      Heap.status_setStatus]
    by_cases ht : t = s
    · subst ht; simp [hs]
    · simp [ht]
  ok_nodup := h.ok_nodup
  error_nodup := h.error_nodup
  noChange_nodup := List.nodup_append.mpr ⟨h.noChange_nodup, by simp, by
    intro a ha b hb hab
    rw [List.mem_singleton.mp hb] at hab
    have := ((h.noChange_iff a).mp ha).2
    rw [hab, hu] at this; cases this⟩
  cut_apply := h.cut_setStatus hu _
  allocated := h.allocated
  created := h.created_setStatus hs _

end Filed

/-! ### `previous_scan` -/

theorem previousScan_heap (W : List SpecId) (st : PlanState) : (previousScan W st).heap = st.heap := by
  induction W generalizing st with
  | nil => rfl
  | cons s W ih => exact ih _

theorem previousScan_plan (W : List SpecId) (st : PlanState) :
    (previousScan W st).plan = { st.plan with
      ok := st.plan.ok ++ W.filter fun s => (st.heap.status s).isOk
      error := st.plan.error ++ W.filter fun s => (st.heap.status s).isError
      noChange := st.plan.noChange ++ W.filter fun s => st.heap.status s = .noChange } := by
  induction W generalizing st with
  | nil => simp [previousScan]
  | cons s W ih =>
    rw [previousScan, ih]
    cases hs : st.heap.status s <;> simp [hs, FileSpecStatus.isOk, FileSpecStatus.isError]

theorem filed_previousScan {W : List SpecId} {h : Heap} (hnd : W.Nodup) (hlt : ∀ s ∈ W, s < h.fresh) :
    Filed W [] (previousScan W ⟨h, {}⟩) := by
  refine ⟨?_, ?_, ?_, ?_, ?_, ?_, ?_, ?_, ?_⟩ <;>
    simp only [previousScan_plan, previousScan_heap, List.nil_append, List.mem_filter,
      List.not_mem_nil, not_false_eq_true, true_and, or_false, decide_eq_true_eq, implies_true,
      false_implies]
  exacts [hnd.filter _, hnd.filter _, hnd.filter _, hlt]

/-! ### Passes that mark unchecked specs -/

section
variable {p : Heap → SpecId → Bool} {add : PlanState → SpecId → PlanState} {W : List SpecId}

/-- What adding an unchecked spec keeps, the whole pass keeps. -/
theorem statusScan_rule {I : PlanState → Prop}
    (hadd : ∀ st s, s ∈ W → st.heap.status s = .unchecked → I st → I (add st s)) {st : PlanState}
    (hst : I st) : I (statusScan p add W st) := by
  induction W generalizing st with
  | nil => exact hst
  | cons s W ih =>
    have hrest := fun st t (ht : t ∈ W) => hadd st t (List.mem_cons_of_mem _ ht)
    rw [statusScan]
    split
    · exact ih hrest (hadd st s (by simp) (And.left ‹_›) hst)
    · exact ih hrest hst

theorem statusScan_of_checked {st : PlanState} (h : ∀ s ∈ W, st.heap.status s ≠ .unchecked) :
    statusScan p add W st = st := by
  induction W with
  | nil => rfl
  | cons s W ih =>
    rw [statusScan, if_neg fun hu => h s (by simp) hu.1]
    exact ih fun t ht => h t (List.mem_cons_of_mem _ ht)

theorem statusScan_only {x : FileSpecStatus} (hadd : ∀ st s, (add st s).heap = st.heap.setStatus s x)
    (st : PlanState) : StatusOnly st.heap (statusScan p add W st).heap :=
  statusScan_rule (I := fun st' => StatusOnly st.heap st'.heap)
    (fun st' s _ _ h => by rw [hadd]; exact h.setStatus s x) (.refl _)

theorem statusScan_status {x : FileSpecStatus} (hx : x ≠ .unchecked)
    (hadd : ∀ st s, (add st s).heap = st.heap.setStatus s x)
    (hp : ∀ (h : Heap) t s, p (h.setStatus t x) s = p h s) (st : PlanState) (s : SpecId) :
    (statusScan p add W st).heap.status s =
      if s ∈ W ∧ st.heap.status s = .unchecked ∧ p st.heap s = true then x else st.heap.status s := by
  induction W generalizing st with
  | nil => simp [statusScan]
  | cons t W ih =>
    rw [statusScan]
    split
    · rename_i ht
      rw [ih, hadd, hp, Heap.status_setStatus]
      by_cases hst : s = t
      · subst hst; simp [hx, ht]
      · simp [hst]
    · rename_i ht
      rw [ih]
      by_cases hst : s = t
      · subst hst; simp [ht]
      · simp [hst]

end

/-! ### `duplicate_scan` -/

/-- What putting an unchecked spec among the errors keeps, `duplicate_scan` keeps. -/
theorem duplicateLoop_rule {I : PlanState → Prop} {V W : List SpecId}
    (hadd : ∀ st s, s ∈ V → st.heap.status s = .unchecked → I st → I (st.addError s .duplicate))
    {map : Table CString SpecId} (hmap : ∀ n s, map n = some s → s ∈ V ∧ s ∉ W) (hW : ∀ s ∈ W, s ∈ V)
    (hnd : W.Nodup) {st : PlanState} (hst : I st) : I (duplicateLoop W map st) := by
  induction W generalizing map st with
  | nil => exact hst
  | cons s W ih =>
    obtain ⟨hs, hnd⟩ := List.nodup_cons.mp hnd
    have hW' : ∀ t ∈ W, t ∈ V := fun t ht => hW t (List.mem_cons_of_mem _ ht)
    have hmap₁ : ∀ n t, map n = some t → t ∈ V ∧ t ∉ W := fun n t ht =>
      ⟨(hmap n t ht).1, fun hm => (hmap n t ht).2 (List.mem_cons_of_mem _ hm)⟩
    have hmap₂ : ∀ n t, map.put (st.heap.newName s) s n = some t → t ∈ V ∧ t ∉ W := by
      intro n t ht
      rw [Table.put_apply] at ht
      split at ht
      · cases ht; exact ⟨hW s (by simp), hs⟩
      · exact hmap₁ n t ht
    rw [duplicateLoop]
    split
    · rename_i hu
      cases hm : map (st.heap.newName s) with
      | none => exact ih hmap₂ hW' hnd hst
      | some t =>
        have hst' : s ≠ t := by rintro rfl; exact (hmap _ _ hm).2 (by simp)
        refine ih hmap₂ hW' hnd (hadd _ s (hW s (by simp)) ?_ ?_)
        · split
          · exact (Heap.status_setStatus_ne _ _ hst').trans hu
          · exact hu
        · split
          · exact hadd _ t (hmap _ _ hm).1 ‹_› hst
          · exact hst
    · exact ih hmap₁ hW' hnd hst

/-- `s` and another unchecked spec of `W` have the same new name. -/
def Shares (h : Heap) (W : List SpecId) (s : SpecId) : Prop :=
  ∃ t ∈ W, t ≠ s ∧ h.status t = .unchecked ∧ h.newName t = h.newName s

instance (h : Heap) (W : List SpecId) (s : SpecId) : Decidable (Shares h W s) :=
  inferInstanceAs (Decidable (∃ t ∈ W, _))

/-- The state of `duplicate_scan` after the specs `done`: the unchecked ones among them that share
their new name are marked, and `map` has the last spec of each new name. -/
structure DuplicateInv (h : Heap) (done : List SpecId) (map : Table CString SpecId) (st : PlanState) :
    Prop where
  only : StatusOnly h st.heap
  status : ∀ s, st.heap.status s =
    if s ∈ done ∧ h.status s = .unchecked ∧ Shares h done s then .duplicate else h.status s
  map_some : ∀ n s, map n = some s → s ∈ done ∧ h.status s = .unchecked ∧ h.newName s = n
  map_isSome : ∀ s ∈ done, h.status s = .unchecked → ∃ t, map (h.newName s) = some t

theorem shares_snoc {h : Heap} {done : List SpecId} {s t : SpecId} :
    Shares h (done ++ [s]) t ↔
      Shares h done t ∨ (s ≠ t ∧ h.status s = .unchecked ∧ h.newName s = h.newName t) := by
  simp [Shares, or_and_right, exists_or]

namespace DuplicateInv
variable {h : Heap} {done : List SpecId} {map : Table CString SpecId} {st : PlanState} {s t : SpecId}

theorem skip (inv : DuplicateInv h done map st) (hu : h.status s ≠ .unchecked) :
    DuplicateInv h (done ++ [s]) map st where
  only := inv.only
  status t := by
    rw [inv.status]
    congr 1
    simp only [List.mem_append, List.mem_singleton, shares_snoc, hu, false_and, and_false, or_false,
      eq_iff_iff]
    constructor
    · rintro ⟨h1, h2⟩; exact ⟨.inl h1, h2⟩
    · rintro ⟨h1 | rfl, h2, h3⟩
      · exact ⟨h1, h2, h3⟩
      · exact absurd h2 hu
  map_some n t ht := by
    obtain ⟨h1, h2⟩ := inv.map_some n t ht
    exact ⟨by simp [h1], h2⟩
  map_isSome t ht htu := by
    rcases List.mem_append.mp ht with ht | ht
    · exact inv.map_isSome t ht htu
    · obtain rfl := List.mem_singleton.mp ht; exact absurd htu hu

theorem put_some (inv : DuplicateInv h done map st) (hu : h.status s = .unchecked) (n : CString)
    (t : SpecId) (ht : map.put (h.newName s) s n = some t) :
    t ∈ done ++ [s] ∧ h.status t = .unchecked ∧ h.newName t = n := by
  rw [Table.put_apply] at ht
  split at ht
  · cases ht; exact ⟨by simp, hu, Eq.symm ‹_›⟩
  · obtain ⟨h1, h2⟩ := inv.map_some n t ht
    exact ⟨by simp [h1], h2⟩

theorem put_isSome (inv : DuplicateInv h done map st) (t : SpecId) (ht : t ∈ done ++ [s])
    (htu : h.status t = .unchecked) : ∃ u, map.put (h.newName s) s (h.newName t) = some u := by
  rw [Table.put_apply]
  split
  · exact ⟨s, rfl⟩
  · rename_i hne
    rcases List.mem_append.mp ht with ht | ht
    · exact inv.map_isSome t ht htu
    · obtain rfl := List.mem_singleton.mp ht; exact absurd rfl hne

theorem first (inv : DuplicateInv h done map st) (hs : s ∉ done) (hu : h.status s = .unchecked)
    (hm : map (h.newName s) = none) :
    DuplicateInv h (done ++ [s]) (map.put (h.newName s) s) st where
  only := inv.only
  status t := by
    have hne : ∀ u ∈ done, h.status u = .unchecked → h.newName u ≠ h.newName s := by
      intro u hud huu heq
      obtain ⟨v, hv⟩ := inv.map_isSome u hud huu
      rw [heq, hm] at hv; cases hv
    rw [inv.status]
    congr 1
    simp only [List.mem_append, List.mem_singleton, shares_snoc, hu, true_and, eq_iff_iff]
    constructor
    · rintro ⟨h1, h2, h3⟩; exact ⟨.inl h1, h2, .inl h3⟩
    · rintro ⟨h1 | rfl, h2, h3⟩
      · rcases h3 with h3 | ⟨_, h3⟩
        · exact ⟨h1, h2, h3⟩
        · exact absurd h3.symm (hne t h1 h2)
      · rcases h3 with ⟨u, h4, _, h6, h7⟩ | ⟨h3, _⟩
        · exact absurd h7 (hne u h4 h6)
        · exact absurd rfl h3
  map_some := inv.put_some hu
  map_isSome := inv.put_isSome

theorem marked (inv : DuplicateInv h done map st) (ht : st.heap.status t ≠ .unchecked) {n : CString}
    (hm : map n = some t) : st.heap.status t = .duplicate := by
  rw [inv.status] at ht ⊢
  split
  · rfl
  · rename_i hno
    rw [if_neg hno] at ht
    exact absurd (inv.map_some n t hm).2.1 ht

theorem again (inv : DuplicateInv h done map st) (hs : s ∉ done) (hu : h.status s = .unchecked)
    (hm : map (h.newName s) = some t) {st' : PlanState} (honly : StatusOnly h st'.heap)
    (hst' : ∀ u, st'.heap.status u = if u = s ∨ u = t then .duplicate else st.heap.status u) :
    DuplicateInv h (done ++ [s]) (map.put (h.newName s) s) st' where
  only := honly
  status u := by
    obtain ⟨ht, htu, htn⟩ := inv.map_some _ _ hm
    have hts : t ≠ s := by rintro rfl; exact hs ht
    rw [hst']
    simp only [List.mem_append, List.mem_singleton, shares_snoc, hu, true_and]
    by_cases hus : u = s
    · subst hus
      have hsh : Shares h done u := ⟨t, ht, hts, htu, htn⟩
      simp [hu, hsh]
    by_cases hut : u = t
    · subst hut; simp [ht, htu, htn, hts.symm]
    · rw [if_neg (by simp [hus, hut]), inv.status]
      congr 1
      simp only [hus, or_false, eq_iff_iff]
      refine and_congr_right fun _ => and_congr_right fun _ => ⟨.inl, ?_⟩
      rintro (h3 | ⟨_, h3⟩)
      · exact h3
      · exact ⟨t, ht, Ne.symm hut, htu, htn.trans h3⟩
  map_some := inv.put_some hu
  map_isSome := inv.put_isSome

end DuplicateInv

theorem duplicateLoop_inv {h : Heap} {done W : List SpecId} {map : Table CString SpecId} {st : PlanState}
    (hnd : (done ++ W).Nodup) (inv : DuplicateInv h done map st) :
    ∃ map', DuplicateInv h (done ++ W) map' (duplicateLoop W map st) := by
  induction W generalizing done map st with
  | nil => exact ⟨map, by simpa [duplicateLoop] using inv⟩
  | cons s W ih =>
    have hs : s ∉ done := fun hm => (List.nodup_append.mp hnd).2.2 s hm s (by simp) rfl
    have hstat : st.heap.status s = h.status s := by rw [inv.status, if_neg (by simp [hs])]
    rw [List.append_cons] at hnd ⊢
    rw [duplicateLoop]
    split
    · rename_i hu
      rw [hstat] at hu
      simp only [inv.only.newName]
      cases hm : map (h.newName s) with
      | none => exact ih hnd (inv.first hs hu hm)
      | some t =>
        refine ih hnd (inv.again hs hu hm ?_ fun u => ?_)
        · split
          · exact (inv.only.setStatus t _).setStatus s _
          · exact inv.only.setStatus s _
        · split
          · simp only [PlanState.addError, Heap.status_setStatus]
            by_cases hus : u = s <;> simp [hus]
          · rename_i ht
            simp only [PlanState.addError, Heap.status_setStatus]
            by_cases hut : u = t
            · subst hut; simp [inv.marked ht hm]
            · simp [hut]
    · rename_i hu
      rw [hstat] at hu
      exact ih hnd (inv.skip hu)

theorem duplicateInv_nil (st : PlanState) : DuplicateInv st.heap [] Table.empty st :=
  ⟨.refl _, by simp, by simp [Table.empty], by simp⟩

section
variable {W cut : List SpecId} {st : PlanState}

theorem duplicateScan_only (hnd : W.Nodup) (st : PlanState) :
    StatusOnly st.heap (duplicateScan W st).heap := by
  obtain ⟨_, inv⟩ := duplicateLoop_inv (by simpa using hnd) (duplicateInv_nil st)
  exact inv.only

theorem duplicateScan_status (hnd : W.Nodup) (st : PlanState) (s : SpecId) :
    (duplicateScan W st).heap.status s =
      if s ∈ W ∧ st.heap.status s = .unchecked ∧ Shares st.heap W s then .duplicate
      else st.heap.status s := by
  obtain ⟨_, inv⟩ := duplicateLoop_inv (by simpa using hnd) (duplicateInv_nil st)
  rw [duplicateScan]
  simpa using inv.status s

theorem duplicateScan_ok (hnd : W.Nodup) (st : PlanState) :
    (duplicateScan W st).plan.ok = st.plan.ok :=
  duplicateLoop_rule (I := fun st' => st'.plan.ok = st.plan.ok) (fun _ _ _ _ h => h)
    (by simp [Table.empty]) (fun _ h => h) hnd rfl

theorem duplicateScan_freeSpec (hnd : W.Nodup) (st : PlanState) :
    (duplicateScan W st).plan.freeSpec = st.plan.freeSpec :=
  duplicateLoop_rule (I := fun st' => st'.plan.freeSpec = st.plan.freeSpec) (fun _ _ _ _ h => h)
    (by simp [Table.empty]) (fun _ h => h) hnd rfl

theorem filed_duplicateScan (h : Filed W cut st) (hnd : W.Nodup) : Filed W cut (duplicateScan W st) :=
  duplicateLoop_rule (I := Filed W cut) (fun _ _ hs hu h => h.addError hs hu rfl)
    (by simp [Table.empty]) (fun _ h => h) hnd h

end

/-! ### The passes before the ordering -/

section
variable {fileExists : CString → Bool} {W : List SpecId}

theorem oldMissingScan_only (st : PlanState) :
    StatusOnly st.heap (oldMissingScan fileExists W st).heap := statusScan_only (fun _ _ => rfl) st

theorem oldMissingScan_status (st : PlanState) (s : SpecId) :
    (oldMissingScan fileExists W st).heap.status s =
      if s ∈ W ∧ st.heap.status s = .unchecked ∧ fileExists (st.heap.oldName s) = false then .oldMissing
      else st.heap.status s := by
  rw [oldMissingScan, statusScan_status (by decide) (fun _ _ => rfl) (fun _ _ _ => rfl)]
  simp

theorem noChangeScan_only (st : PlanState) : StatusOnly st.heap (noChangeScan W st).heap :=
  statusScan_only (fun _ _ => rfl) st

theorem noChangeScan_status (st : PlanState) (s : SpecId) : (noChangeScan W st).heap.status s =
    if s ∈ W ∧ st.heap.status s = .unchecked ∧ st.heap.oldName s = st.heap.newName s then .noChange
    else st.heap.status s := by
  rw [noChangeScan, statusScan_status (by decide) (fun _ _ => rfl) (fun _ _ _ => rfl)]
  simp

/-- The state of `make_plan` before the passes that only one program mode has. -/
def scanned (fileExists : CString → Bool) (W : List SpecId) (h : Heap) : PlanState :=
  noChangeScan W (oldMissingScan fileExists W (duplicateScan W (previousScan W ⟨h, {}⟩)))

variable {h : Heap}

theorem scanned_only (hnd : W.Nodup) : StatusOnly h (scanned fileExists W h).heap := by
  have h₁ := duplicateScan_only hnd (previousScan W ⟨h, {}⟩)
  rw [previousScan_heap] at h₁
  exact (h₁.trans (oldMissingScan_only _)).trans (noChangeScan_only _)

/-- What the scans make of a spec. -/
theorem scanned_status (hnd : W.Nodup) (s : SpecId) : (scanned fileExists W h).heap.status s =
    if s ∈ W ∧ h.status s = .unchecked then
      if Shares h W s then .duplicate
      else if fileExists (h.oldName s) = false then .oldMissing
      else if h.oldName s = h.newName s then .noChange
      else .unchecked
    else h.status s := by
  have h₁ := duplicateScan_only hnd (previousScan W ⟨h, {}⟩)
  have e₁ := duplicateScan_status hnd (previousScan W ⟨h, {}⟩) s
  rw [previousScan_heap] at h₁ e₁
  have h₂ : StatusOnly h (oldMissingScan fileExists W _).heap := h₁.trans (oldMissingScan_only _)
  rw [scanned, noChangeScan_status, oldMissingScan_status, h₂.oldName, h₂.newName, h₁.oldName, e₁]
  by_cases hs : s ∈ W ∧ h.status s = .unchecked
  · by_cases hd : Shares h W s
    · simp [hs, hd]
    · by_cases he : fileExists (h.oldName s) = true
      · simp [hs, hd, he]
      · simp [hs, hd, he]
  · simp only [← and_assoc, hs, false_and, if_false]

theorem unchecked_scanned_iff (hnd : W.Nodup) {s : SpecId} :
    (s ∈ W ∧ (scanned fileExists W h).heap.status s = .unchecked) ↔
      s ∈ W ∧ h.status s = .unchecked ∧ ¬ Shares h W s ∧ fileExists (h.oldName s) = true ∧
        h.oldName s ≠ h.newName s := by
  refine and_congr_right fun hs => ?_
  rw [scanned_status hnd]
  by_cases hu : h.status s = .unchecked
  · simp only [hs, hu, true_and, if_true]
    by_cases hd : Shares h W s
    · simp [hd]
    by_cases he : fileExists (h.oldName s) = true
    · by_cases ho : h.oldName s = h.newName s
      · rw [if_neg hd, if_neg (by simp [he]), if_pos ho]
        simp [ho]
      · simp [hd, he, ho]
    · simp [hd, he]
  · simp [hu]

theorem scanned_ok (hnd : W.Nodup) :
    (scanned fileExists W h).plan.ok = W.filter fun s => (h.status s).isOk := by
  refine statusScan_rule (I := fun st => st.plan.ok = W.filter fun s => (h.status s).isOk)
    (fun _ _ _ _ h => by exact h) (statusScan_rule
      (I := fun st => st.plan.ok = W.filter fun s => (h.status s).isOk) (fun _ _ _ _ h => by exact h) ?_)
  rw [duplicateScan_ok hnd, previousScan_plan]
  rfl

theorem scanned_freeSpec (hnd : W.Nodup) : (scanned fileExists W h).plan.freeSpec = [] := by
  refine statusScan_rule (I := fun st => st.plan.freeSpec = []) (fun _ _ _ _ h => by exact h)
    (statusScan_rule (I := fun st => st.plan.freeSpec = []) (fun _ _ _ _ h => by exact h) ?_)
  rw [duplicateScan_freeSpec hnd, previousScan_plan]

theorem filed_scanned (hnd : W.Nodup) (hlt : ∀ s ∈ W, s < h.fresh) :
    Filed W [] (scanned fileExists W h) :=
  statusScan_rule (fun _ _ hs hu h => h.addNoChange hs hu)
    (statusScan_rule (fun _ _ hs hu h => h.addError hs hu rfl)
      (filed_duplicateScan (filed_previousScan hnd hlt) hnd))

end

end Renameutils
