import Renameutils.Lib.Chain
import Renameutils.PlanScans

/-!
# `topologic_sort`

`TopologicBase`: whatever the names are, the pass appends unchecked specs to `ok` and marks them
`STATUS_APPLY`. `TopologicLinks`: when the old names are distinct and exist and the new names are
distinct, each appended spec either has a free destination or depends on a spec before it, and
`available` holds the old names that no appended spec moves to.
-/

namespace Renameutils
open Chain

/-- The unchecked specs of `W`. -/
def Unchecked (h : Heap) (W : List SpecId) (s : SpecId) : Prop := s ∈ W ∧ h.status s = .unchecked

/-- The state of `topologic_sort` after the specs `T` were appended; those in `pending` were not. -/
structure TopologicBase (W : List SpecId) (st₀ : PlanState) (st : PlanState) (T pending : List SpecId) :
    Prop where
  oldName : st.heap.oldName = st₀.heap.oldName
  newName : st.heap.newName = st₀.heap.newName
  fresh : st.heap.fresh = st₀.heap.fresh
  plan : st.plan = { st₀.plan with ok := st₀.plan.ok ++ T }
  status : ∀ s, st.heap.status s = if s ∈ T then .apply else st₀.heap.status s
  nodup : (T ++ pending).Nodup
  mem_iff : ∀ s, s ∈ T ++ pending ↔ Unchecked st₀.heap W s

namespace TopologicBase
variable {W cut T pending kept rest : List SpecId} {st₀ st : PlanState} {s : SpecId}

theorem unchecked_of_mem (b : TopologicBase W st₀ st T pending) (hs : s ∈ T) :
    Unchecked st₀.heap W s := (b.mem_iff s).mp (List.mem_append_left _ hs)

theorem unchecked_of_pending (b : TopologicBase W st₀ st T pending) (hs : s ∈ pending) :
    Unchecked st₀.heap W s := (b.mem_iff s).mp (List.mem_append_right _ hs)

theorem notMem_of_pending (b : TopologicBase W st₀ st T pending) (hs : s ∈ pending) : s ∉ T :=
  fun ht => (List.nodup_append.mp b.nodup).2.2 s ht s hs rfl

theorem step (b : TopologicBase W st₀ st T (kept ++ s :: rest)) {h : Heap}
    (ho : h.oldName = st.heap.oldName) (hn : h.newName = st.heap.newName)
    (hst : h.status = st.heap.status) (hf : h.fresh = st.heap.fresh) :
    TopologicBase W st₀ (PlanState.addOk ⟨h, st.plan⟩ s .apply) (T ++ [s]) (kept ++ rest) where
  oldName := ho.trans b.oldName
  newName := hn.trans b.newName
  fresh := hf.trans b.fresh
  plan := by simp [PlanState.addOk, b.plan]
  status t := by
    simp only [PlanState.addOk, Heap.status_setStatus, hst, b.status, List.mem_append,
      List.mem_singleton]
    by_cases hts : t = s <;> simp [hts]
  nodup := by
    refine (List.Perm.nodup_iff ?_).mp b.nodup
    rw [List.append_assoc]
    exact List.Perm.append_left T List.perm_middle
  mem_iff t := by
    rw [← b.mem_iff]
    simp only [List.mem_append, List.mem_cons]
    tauto

theorem nil (st₀ : PlanState) : TopologicBase [] st₀ st₀ [] [] :=
  ⟨rfl, rfl, rfl, by simp, by simp, by simp, by simp [Unchecked]⟩

theorem skip (b : TopologicBase W st₀ st T pending) (hu : st₀.heap.status s ≠ .unchecked) :
    TopologicBase (W ++ [s]) st₀ st T pending where
  __ := b
  mem_iff t := by
    rw [b.mem_iff]
    simp only [Unchecked, List.mem_append, List.mem_singleton]
    constructor
    · rintro ⟨h1, h2⟩; exact ⟨.inl h1, h2⟩
    · rintro ⟨h1 | rfl, h2⟩
      · exact ⟨h1, h2⟩
      · exact absurd h2 hu

theorem pend (b : TopologicBase W st₀ st T pending) (hs : s ∉ W) (hu : st₀.heap.status s = .unchecked) :
    TopologicBase (W ++ [s]) st₀ st T (pending ++ [s]) where
  __ := b
  nodup := by
    rw [← List.append_assoc]
    refine List.nodup_append.mpr ⟨b.nodup, by simp, ?_⟩
    rintro a ha c hc rfl
    obtain rfl := List.mem_singleton.mp hc
    exact hs ((b.mem_iff a).mp ha).1
  mem_iff t := by
    rw [← List.append_assoc, List.mem_append, b.mem_iff]
    simp only [Unchecked, List.mem_append, List.mem_singleton]
    constructor
    · rintro (⟨h1, h2⟩ | rfl)
      · exact ⟨.inl h1, h2⟩
      · exact ⟨.inr rfl, hu⟩
    · rintro ⟨h1 | rfl, h2⟩
      · exact .inl ⟨h1, h2⟩
      · exact .inr rfl

theorem filed (b : TopologicBase W st₀ st T pending) (h : Filed W cut st₀) : Filed W cut st where
  ok_iff s := by
    have hcut : s ∈ T → s ∉ cut := fun hs => h.notMem_cut (b.unchecked_of_mem hs).2
    simp only [b.plan, List.mem_append, h.ok_iff, b.status]
    by_cases hs : s ∈ T
    · simp [hs, hcut hs, (b.unchecked_of_mem hs).1, FileSpecStatus.isOk]
    · simp [hs]
  error_iff s := by
    simp only [b.plan, h.error_iff, b.status]
    by_cases hs : s ∈ T
    · simp [hs, (b.unchecked_of_mem hs).2, FileSpecStatus.isError]
    · simp [hs]
  noChange_iff s := by
    simp only [b.plan, h.noChange_iff, b.status]
    by_cases hs : s ∈ T
    · simp [hs, (b.unchecked_of_mem hs).2]
    · simp [hs]
  ok_nodup := by
    rw [b.plan]
    refine List.nodup_append.mpr ⟨h.ok_nodup, (List.nodup_append.mp b.nodup).1, ?_⟩
    rintro a ha _ hb rfl
    exact h.notMem_ok (b.unchecked_of_mem hb).1 (b.unchecked_of_mem hb).2 ha
  error_nodup := by rw [b.plan]; exact h.error_nodup
  noChange_nodup := by rw [b.plan]; exact h.noChange_nodup
  cut_apply s hs := by
    refine ⟨(h.cut_apply s hs).1, ?_⟩
    rw [b.status]; split
    · rfl
    · exact (h.cut_apply s hs).2
  allocated s hs := by rw [b.fresh]; exact h.allocated s hs
  created s hs := by
    rw [b.plan] at hs
    obtain ⟨hW, hlt, hc⟩ := h.created s hs
    rw [b.fresh, b.status, if_neg fun hm => hW (b.unchecked_of_mem hm).1]
    exact ⟨hW, hlt, hc⟩

end TopologicBase

/-! ### Links -/

/-- `b` is the spec of `R` that is in the place of the new name of `a`. -/
def MovesOnto (h : Heap) (R : SpecId → Prop) (a b : SpecId) : Prop :=
  R a ∧ R b ∧ h.oldName b = h.newName a

/-- What the scans leave of specs with distinct old names. -/
structure Distinct (fileExists : CString → Bool) (h : Heap) (R : SpecId → Prop) : Prop where
  old_inj : ∀ s t, R s → R t → h.oldName s = h.oldName t → s = t
  new_inj : ∀ s t, R s → R t → h.newName s = h.newName t → s = t
  old_exists : ∀ s, R s → fileExists (h.oldName s) = true
  old_ne : ∀ s, R s → h.oldName s ≠ h.newName s

structure TopologicLinks (fileExists : CString → Bool) (R : SpecId → Prop) (h₀ : Heap)
    (ts : TopologicState) (T : List SpecId) : Prop where
  prev_out : ∀ s, s ∉ T → ts.st.heap.prevSpec s = h₀.prevSpec s
  next_or : ∀ f, ts.st.heap.nextSpec f = h₀.nextSpec f ∨ ∃ t, ts.st.heap.nextSpec f = some t ∧
    f ∈ T ∧ t ∈ T ∧ ts.st.heap.prevSpec t = some f ∧ h₀.oldName f = h₀.newName t
  free_or : ∀ s ∈ T,
    (fileExists (h₀.newName s) = false ∧ ts.st.heap.prevSpec s = h₀.prevSpec s) ∨
    (fileExists (h₀.newName s) = true ∧ ∃ d, Before T d s ∧ ts.st.heap.prevSpec s = some d ∧
      ts.st.heap.nextSpec d = some s ∧ h₀.oldName d = h₀.newName s)
  available_iff : ∀ n s, ts.available n = some s ↔
    s ∈ T ∧ h₀.oldName s = n ∧ ∀ t ∈ T, h₀.newName t ≠ n
  ends : ∀ s ∈ T, ∃ t, Chain.EndsAt (MovesOnto h₀ R) s t ∧ fileExists (h₀.newName t) = false

namespace TopologicLinks
variable {fileExists : CString → Bool} {R : SpecId → Prop} {h₀ : Heap} {ts : TopologicState}
  {T : List SpecId} {s d : SpecId}

theorem nil (st : PlanState) : TopologicLinks fileExists R st.heap ⟨Table.empty, st⟩ [] :=
  ⟨by simp, by simp, by simp, by simp [Table.empty], by simp⟩

/-- Nothing before moves to the old name of a spec that is not there yet. -/
theorem new_ne_old (l : TopologicLinks fileExists R h₀ ts T) (D : Distinct fileExists h₀ R)
    (hT : ∀ t ∈ T, R t) (hs : R s) (hsT : s ∉ T) : ∀ t ∈ T, h₀.newName t ≠ h₀.oldName s := by
  intro t ht heq
  rcases l.free_or t ht with ⟨hf, _⟩ | ⟨_, d, hd, _, _, hdt⟩
  · rw [heq, D.old_exists s hs] at hf; cases hf
  · obtain rfl := D.old_inj d s (hT d hd.mem_left) hs (hdt.trans heq)
    exact hsT hd.mem_left

/-- Appending a spec whose destination does not exist. -/
theorem addFree (l : TopologicLinks fileExists R h₀ ts T) (D : Distinct fileExists h₀ R)
    (hT : ∀ t ∈ T, R t) (hs : R s) (hsT : s ∉ T) (he : fileExists (h₀.newName s) = false)
    (ho : ts.st.heap.oldName = h₀.oldName) :
    TopologicLinks fileExists R h₀
      ⟨ts.available.put (ts.st.heap.oldName s) s, ts.st.addOk s .apply⟩ (T ++ [s]) where
  prev_out t ht := l.prev_out t fun h => ht (by simp [h])
  next_or f := by
    refine (l.next_or f).imp_right ?_
    rintro ⟨t, h1, h2, h3, h4⟩
    exact ⟨t, h1, by simp [h2], by simp [h3], h4⟩
  free_or t ht := by
    rcases List.mem_append.mp ht with ht | ht
    · refine (l.free_or t ht).imp_right ?_
      rintro ⟨h1, d, h2, h3⟩
      exact ⟨h1, d, h2.append_right _, h3⟩
    · obtain rfl := List.mem_singleton.mp ht
      exact .inl ⟨he, l.prev_out t hsT⟩
  available_iff n t := by
    have hnew := l.new_ne_old D hT hs hsT
    simp only [ho, Table.put_apply, List.mem_append, List.mem_singleton]
    split
    · subst n
      constructor
      · rintro ⟨⟩
        exact ⟨.inr rfl, rfl, fun u hu => hu.elim (hnew u) (by rintro rfl; exact (D.old_ne u hs).symm)⟩
      · rintro ⟨ht, hts, _⟩
        rw [ht.elim (fun h => D.old_inj t s (hT t h) hs hts) id]
    · rename_i hn
      rw [l.available_iff]
      constructor
      · rintro ⟨h1, h2, h3⟩
        refine ⟨.inl h1, h2, fun u hu => hu.elim (h3 u) ?_⟩
        rintro rfl hu
        rw [hu, ← h2, D.old_exists t (hT t h1)] at he; cases he
      · rintro ⟨h1, h2, h3⟩
        refine ⟨h1.resolve_right ?_, h2, fun u hu => h3 u (.inl hu)⟩
        rintro rfl; exact hn h2.symm
  ends t ht := by
    rcases List.mem_append.mp ht with ht | ht
    · exact l.ends t ht
    · obtain rfl := List.mem_singleton.mp ht
      refine ⟨t, ⟨.refl, ?_⟩, he⟩
      rintro u ⟨_, hu, hut⟩
      rw [← hut, D.old_exists u hu] at he; cases he

/-- Appending a spec whose destination is where `d` is now. -/
theorem addDepend (l : TopologicLinks fileExists R h₀ ts T) (D : Distinct fileExists h₀ R)
    (hT : ∀ t ∈ T, R t) (hs : R s) (hsT : s ∉ T) (ho : ts.st.heap.oldName = h₀.oldName)
    (hn : ts.st.heap.newName = h₀.newName) (hd : ts.available (ts.st.heap.newName s) = some d) :
    TopologicLinks fileExists R h₀ (topologicStep ts s d) (T ++ [s]) := by
  rw [hn, l.available_iff] at hd
  obtain ⟨hdT, hds, hfree⟩ := hd
  have hsd : s ≠ d := by rintro rfl; exact hsT hdT
  have hprev : ∀ t, (topologicStep ts s d).st.heap.prevSpec t =
      if t = s then some d else ts.st.heap.prevSpec t := fun t => Function.update_apply ..
  have hnext : ∀ t, (topologicStep ts s d).st.heap.nextSpec t =
      if t = d then some s else ts.st.heap.nextSpec t := fun t => Function.update_apply ..
  have hnew := l.new_ne_old D hT hs hsT
  refine ⟨?_, ?_, ?_, ?_, ?_⟩
  · intro t ht
    rw [hprev, if_neg (by rintro rfl; simp at ht)]
    exact l.prev_out t fun h => ht (by simp [h])
  · intro f
    rw [hnext]
    split
    · subst f
      exact .inr ⟨s, rfl, by simp [hdT], by simp, by rw [hprev, if_pos rfl], hds⟩
    · refine (l.next_or f).imp_right ?_
      rintro ⟨t, h1, h2, h3, h4, h5⟩
      refine ⟨t, h1, by simp [h2], by simp [h3], ?_, h5⟩
      rw [hprev, if_neg (by rintro rfl; exact hsT h3), h4]
  · intro t ht
    rcases List.mem_append.mp ht with ht | ht
    · have hts : t ≠ s := fun h => hsT (h ▸ ht)
      rw [hprev, if_neg hts]
      refine (l.free_or t ht).imp_right ?_
      rintro ⟨h1, e, h2, h3, h4, h5⟩
      refine ⟨h1, e, h2.append_right _, h3, ?_, h5⟩
      rw [hnext, if_neg, h4]
      rintro rfl
      exact hfree t ht (h5.symm.trans hds)
    · obtain rfl := List.mem_singleton.mp ht
      refine .inr ⟨by rw [← hds]; exact D.old_exists d (hT d hdT), d, .snoc hdT, ?_, ?_, hds⟩
      · rw [hprev, if_pos rfl]
      · rw [hnext, if_pos rfl]
  · intro n t
    show ((ts.available.put (ts.st.heap.oldName s) s).remove (ts.st.heap.newName s)) n = some t ↔ _
    simp only [ho, hn, Table.remove_apply, Table.put_apply, List.mem_append, List.mem_singleton]
    by_cases hn₁ : n = h₀.newName s
    · subst hn₁; simp
    rw [if_neg hn₁]
    by_cases hn₂ : n = h₀.oldName s
    · subst hn₂
      rw [if_pos rfl]
      constructor
      · rintro ⟨⟩
        exact ⟨.inr rfl, rfl, fun u hu => hu.elim (hnew u) (by rintro rfl; exact (D.old_ne u hs).symm)⟩
      · rintro ⟨ht, hts, _⟩
        rw [ht.elim (fun h => D.old_inj t s (hT t h) hs hts) id]
    · rw [if_neg hn₂, l.available_iff]
      constructor
      · rintro ⟨h1, h2, h3⟩
        exact ⟨.inl h1, h2, fun u hu => hu.elim (h3 u) (by rintro rfl; exact Ne.symm hn₁)⟩
      · rintro ⟨h1, h2, h3⟩
        refine ⟨h1.resolve_right ?_, h2, fun u hu => h3 u (.inl hu)⟩
        rintro rfl; exact hn₂ h2.symm
  · intro t ht
    rcases List.mem_append.mp ht with ht | ht
    · exact l.ends t ht
    · obtain rfl := List.mem_singleton.mp ht
      obtain ⟨u, hu, hf⟩ := l.ends d hdT
      exact ⟨u, hu.head ⟨hs, hT d hdT, hds⟩, hf⟩

end TopologicLinks

/-! ### The loops -/

/-- The state between the steps of `topologic_sort`, which has dealt with the specs `W` so far and
has appended those in `T`. -/
structure TopologicInv (fileExists : CString → Bool) (R : SpecId → Prop) (W : List SpecId)
    (st₀ : PlanState) (ts : TopologicState) (T pending : List SpecId) : Prop where
  base : TopologicBase W st₀ ts.st T pending
  links : Distinct fileExists st₀.heap R → TopologicLinks fileExists R st₀.heap ts T
  taken : ∀ s ∈ pending, fileExists (st₀.heap.newName s) = true

namespace TopologicInv
variable {fileExists : CString → Bool} {R : SpecId → Prop} {W done rest kept T pending : List SpecId}
  {st₀ st : PlanState} {ts : TopologicState} {s d t : SpecId}

theorem nil (st₀ : PlanState) : TopologicInv fileExists R [] st₀ ⟨Table.empty, st₀⟩ [] [] :=
  ⟨.nil st₀, fun _ => .nil st₀, by simp⟩

theorem addFree (inv : TopologicInv fileExists R done st₀ ts T pending)
    (hR : ∀ t, Unchecked st₀.heap (done ++ [s]) t → R t) (hs : s ∉ done) (hu : st₀.heap.status s = .unchecked)
    (he : fileExists (st₀.heap.newName s) = false) :
    TopologicInv fileExists R (done ++ [s]) st₀
      ⟨ts.available.put (ts.st.heap.oldName s) s, ts.st.addOk s .apply⟩ (T ++ [s]) pending where
  base := by
    have b : TopologicBase (done ++ [s]) st₀ (ts.st.addOk s .apply) (T ++ [s]) (pending ++ []) :=
      (inv.base.pend hs hu).step rfl rfl rfl rfl
    rwa [List.append_nil] at b
  links D := by
    have hsT : s ∉ T := fun h => hs (inv.base.unchecked_of_mem h).1
    have hRT : ∀ t ∈ T, R t := fun t ht =>
      hR t ⟨by simp [(inv.base.unchecked_of_mem ht).1], (inv.base.unchecked_of_mem ht).2⟩
    exact (inv.links D).addFree D hRT (hR s ⟨by simp, hu⟩) hsT he inv.base.oldName
  taken := inv.taken

theorem pend (inv : TopologicInv fileExists R done st₀ ts T pending) (hs : s ∉ done)
    (hu : st₀.heap.status s = .unchecked) (he : fileExists (st₀.heap.newName s) = true) :
    TopologicInv fileExists R (done ++ [s]) st₀ ts T (pending ++ [s]) where
  base := inv.base.pend hs hu
  links := inv.links
  taken t ht := by
    rcases List.mem_append.mp ht with ht | ht
    · exact inv.taken t ht
    · rwa [List.mem_singleton.mp ht]

theorem skip (inv : TopologicInv fileExists R done st₀ ts T pending)
    (hu : st₀.heap.status s ≠ .unchecked) :
    TopologicInv fileExists R (done ++ [s]) st₀ ts T pending :=
  ⟨inv.base.skip hu, inv.links, inv.taken⟩

theorem addDepend (inv : TopologicInv fileExists R W st₀ ts T (kept ++ s :: rest))
    (hR : ∀ s, Unchecked st₀.heap W s → R s)
    (hd : ts.available (ts.st.heap.newName s) = some d) :
    TopologicInv fileExists R W st₀ (topologicStep ts s d) (T ++ [s]) (kept ++ rest) where
  base := inv.base.step rfl rfl rfl rfl
  links D := by
    have hs : s ∈ kept ++ s :: rest := by simp
    exact (inv.links D).addDepend D (fun t ht => hR t (inv.base.unchecked_of_mem ht))
      (hR s (inv.base.unchecked_of_pending hs)) (inv.base.notMem_of_pending hs)
      inv.base.oldName inv.base.newName hd
  taken t ht := inv.taken t (by
    rcases List.mem_append.mp ht with ht | ht
    · exact List.mem_append_left _ ht
    · exact List.mem_append_right _ (List.mem_cons_of_mem _ ht))

/-- A spec whose chain ends at a free destination does not stay pending. -/
theorem mem_of_endsAt (inv : TopologicInv fileExists (Unchecked st₀.heap W) W st₀ ts T pending)
    (D : Distinct fileExists st₀.heap (Unchecked st₀.heap W))
    (hstuck : ∀ s ∈ pending, ts.available (st₀.heap.newName s) = none)
    (hs : Unchecked st₀.heap W s)
    (ht : Chain.EndsAt (MovesOnto st₀.heap (Unchecked st₀.heap W)) s t)
    (he : fileExists (st₀.heap.newName t) = false) : s ∈ T := by
  obtain ⟨hst, hend⟩ := ht
  induction hst using Relation.ReflTransGen.head_induction_on with
  | refl =>
    refine (List.mem_append.mp ((inv.base.mem_iff _).mpr hs)).resolve_right fun hp => ?_
    rw [inv.taken _ hp] at he; cases he
  | @head a b hab _ ih =>
    obtain ⟨_, hb, hba⟩ := hab
    refine (List.mem_append.mp ((inv.base.mem_iff _).mpr hs)).resolve_right fun hp => ?_
    have hav : ts.available (st₀.heap.newName a) = some b := by
      refine ((inv.links D).available_iff _ _).mpr ⟨ih hb, hba, fun u hu heq => ?_⟩
      obtain rfl := D.new_inj u a (inv.base.unchecked_of_mem hu) hs heq
      exact inv.base.notMem_of_pending hp hu
    rw [hstuck a hp] at hav; cases hav

end TopologicInv

section
variable {fileExists : CString → Bool} {R : SpecId → Prop} {W done rest kept T pending : List SpecId}
  {st₀ st : PlanState} {ts : TopologicState}

theorem topologicStart_inv (hR : ∀ s, Unchecked st₀.heap (done ++ rest) s → R s)
    (hnd : (done ++ rest).Nodup) (inv : TopologicInv fileExists R done st₀ ts T pending) :
    ∃ T', TopologicInv fileExists R (done ++ rest) st₀ (topologicStart fileExists rest ts).1 T'
      (pending ++ (topologicStart fileExists rest ts).2) := by
  induction rest generalizing done ts T pending with
  | nil => exact ⟨T, by simpa [topologicStart] using inv⟩
  | cons s rest ih =>
    have hs : s ∉ done := fun hm => (List.nodup_append.mp hnd).2.2 s hm s (by simp) rfl
    have hstat : ts.st.heap.status s = st₀.heap.status s := by
      rw [inv.base.status, if_neg fun h => hs (inv.base.unchecked_of_mem h).1]
    rw [List.append_cons] at hnd hR ⊢
    simp only [topologicStart, hstat, inv.base.newName]
    split
    · rename_i hu
      cases he : fileExists (st₀.heap.newName s) with
      | false =>
        exact ih hR hnd (inv.addFree (fun t ht => hR t ⟨List.mem_append_left _ ht.1, ht.2⟩) hs hu he)
      | true =>
        simp only [Bool.not_true, Bool.false_eq_true, if_false]
        obtain ⟨T', h⟩ := ih hR hnd (inv.pend hs hu he)
        exact ⟨T', by simpa using h⟩
    · exact ih hR hnd (inv.skip ‹_›)

theorem topologicPass_inv (hR : ∀ s, Unchecked st₀.heap W s → R s)
    (inv : TopologicInv fileExists R W st₀ ts T (kept ++ rest)) :
    ∃ T', TopologicInv fileExists R W st₀ (topologicPass rest ts).1 T'
      (kept ++ (topologicPass rest ts).2.1) := by
  induction rest generalizing kept ts T with
  | nil => exact ⟨T, inv⟩
  | cons s rest ih =>
    rw [topologicPass]
    cases hd : ts.available (ts.st.heap.newName s) with
    | some d => exact ih (inv.addDepend hR hd)
    | none =>
      rw [List.append_cons] at inv
      obtain ⟨T', h⟩ := ih inv
      exact ⟨T', by simpa using h⟩

/-- A pass that changes nothing finds no spec that could be appended. -/
theorem topologicPass_unchanged (h : (topologicPass rest ts).2.2 = false) :
    (topologicPass rest ts).1 = ts ∧ (topologicPass rest ts).2.1 = rest ∧
      ∀ s ∈ rest, ts.available (ts.st.heap.newName s) = none := by
  induction rest generalizing ts with
  | nil => simp [topologicPass]
  | cons s rest ih =>
    rw [topologicPass] at h ⊢
    cases hd : ts.available (ts.st.heap.newName s) with
    | some d => rw [hd] at h; cases h
    | none =>
      rw [hd] at h
      obtain ⟨h1, h2, h3⟩ := ih h
      refine ⟨h1, congrArg (s :: ·) h2, fun t ht => ?_⟩
      rcases List.mem_cons.mp ht with rfl | ht
      · exact hd
      · exact h3 t ht

theorem topologicPass_length (rest : List SpecId) (ts : TopologicState) :
    (topologicPass rest ts).2.1.length + (topologicPass rest ts).2.2.toNat ≤ rest.length := by
  induction rest generalizing ts with
  | nil => simp [topologicPass]
  | cons s rest ih =>
    rw [topologicPass]
    cases hd : ts.available (ts.st.heap.newName s) with
    | some d =>
      have hrest := ih (topologicStep ts s d)
      show (topologicPass rest (topologicStep ts s d)).2.1.length + 1 ≤ rest.length + 1
      omega
    | none =>
      have hrest := ih ts
      show (topologicPass rest ts).2.1.length + 1 + (topologicPass rest ts).2.2.toNat ≤ rest.length + 1
      omega

theorem topologicLoop_inv (hR : ∀ s, Unchecked st₀.heap W s → R s) {fuel : Nat}
    (inv : TopologicInv fileExists R W st₀ ts T pending)
    (h : topologicLoop fuel pending ts = some st) :
    ∃ ts' T' pending', ts'.st = st ∧ TopologicInv fileExists R W st₀ ts' T' pending' ∧
      ∀ s ∈ pending', ts'.available (st₀.heap.newName s) = none := by
  induction fuel generalizing pending ts T with
  | zero => cases h
  | succ fuel ih =>
    rw [← List.nil_append pending] at inv
    obtain ⟨T', inv'⟩ := topologicPass_inv hR inv
    rw [topologicLoop] at h
    split at h
    · rename_i heq
      rw [heq] at inv'
      exact ih inv' h
    · rename_i ts₁ pending₁ heq
      have hfalse : (topologicPass pending ts).2.2 = false := by rw [heq]
      have hun := topologicPass_unchanged hfalse
      simp only [heq] at hun
      obtain ⟨rfl, _, hnone⟩ := hun
      cases h
      exact ⟨ts₁, T, pending, rfl, inv, by rwa [inv.base.newName] at hnone⟩

theorem topologicLoop_isSome {fuel : Nat} (h : pending.length < fuel) :
    (topologicLoop fuel pending ts).isSome = true := by
  induction fuel generalizing pending ts with
  | zero => omega
  | succ fuel ih =>
    have hlen := topologicPass_length pending ts
    rw [topologicLoop]
    split
    · rename_i heq
      simp only [heq, Bool.toNat_true] at hlen
      exact ih (by omega)
    · rfl

theorem topologicSort_inv (hnd : W.Nodup) {fuel : Nat} (h : topologicSort fuel fileExists W st₀ = some st) :
    ∃ ts T pending, ts.st = st ∧ TopologicInv fileExists (Unchecked st₀.heap W) W st₀ ts T pending ∧
      ∀ s ∈ pending, ts.available (st₀.heap.newName s) = none := by
  have nil : TopologicInv fileExists (Unchecked st₀.heap W) [] st₀ ⟨Table.empty, st₀⟩ [] [] := .nil st₀
  obtain ⟨T, inv⟩ := topologicStart_inv (fun s hs => hs) (List.nil_append W ▸ hnd) nil
  exact topologicLoop_inv (fun s hs => hs) inv h

theorem topologicStart_length (rest : List SpecId) (ts : TopologicState) :
    (topologicStart fileExists rest ts).2.length ≤ rest.length := by
  induction rest generalizing ts with
  | nil => simp [topologicStart]
  | cons s rest ih =>
    rw [topologicStart]
    split
    · split
      · exact (ih _).trans (by simp)
      · exact Nat.succ_le_succ (ih _)
    · exact (ih _).trans (by simp)

theorem topologicSort_isSome {fuel : Nat} (h : W.length < fuel) :
    (topologicSort fuel fileExists W st₀).isSome = true :=
  topologicLoop_isSome ((topologicStart_length W _).trans_lt h)

end

end Renameutils
