import Renameutils.Lib.Copies
import Renameutils.ApplyInv
import Renameutils.PlanClass
import Renameutils.PlanModes

/-!
# The plans of qcp

In qcp mode `make_plan` puts the specs in `plan->ok` whose new name is theirs alone and free and whose old
name exists (`Copyable`). No spec waits for another, and the sources are never destinations, so the
commands can be run in any order: what is there afterwards is decided by which of them succeeded
(`makePlan_qcp_copied`).
-/

namespace Renameutils
open Chain

/-- The specs of a fresh list that are copied. -/
structure Copyable (fileExists : CString → Bool) (W : List SpecId) (h : Heap) (s : SpecId) : Prop where
  mem : s ∈ W
  alone : ¬ SharesNew W h s
  old_exists : fileExists (h.oldName s) = true
  old_ne : h.oldName s ≠ h.newName s
  new_free : fileExists (h.newName s) = false

section
variable {fileExists : CString → Bool} {W : List SpecId} {h : Heap} {st : PlanState} {s : SpecId}

/-- `new_exists_scan` marks the specs whose new name exists. That the new name is an old name of the list
decides nothing: the old names that are left exist. -/
theorem newExistsScan_status (hold : ∀ t ∈ W, st.heap.status t = .unchecked →
      fileExists (st.heap.oldName t) = true) (s : SpecId) :
    (newExistsScan fileExists W st).heap.status s =
      if s ∈ W ∧ st.heap.status s = .unchecked ∧ fileExists (st.heap.newName s) = true then .newExists
      else st.heap.status s := by
  have hmap : (oldNameMap W st.heap).contains (st.heap.newName s) = true →
      fileExists (st.heap.newName s) = true := by
    intro hc
    obtain ⟨t, ht⟩ := Option.isSome_iff_exists.mp hc
    obtain ⟨htW, htu, heq⟩ := oldNameMap_some ht
    exact heq ▸ hold t htW htu
  have honly : StatusOnly st.heap (statusScan (fun h spec => (oldNameMap W st.heap).contains (h.newName spec))
      (·.addError · .newExists) W st).heap := statusScan_only (fun _ _ => rfl) st
  rw [newExistsScan, statusScan_status (by decide) (fun _ _ => rfl) (fun _ _ _ => rfl), honly.newName,
    statusScan_status (by decide) (fun _ _ => rfl) (fun _ _ _ => rfl)]
  by_cases hs : s ∈ W ∧ st.heap.status s = .unchecked
  · by_cases hm : (oldNameMap W st.heap).contains (st.heap.newName s) = true
    · simp [hs, hm, hmap hm]
    · simp [hs, hm]
  · simp only [← and_assoc, hs, false_and, if_false]

theorem applyUnchecked_status (st : PlanState) (s : SpecId) : (applyUnchecked W st).heap.status s =
    if s ∈ W ∧ st.heap.status s = .unchecked then .apply else st.heap.status s := by
  rw [applyUnchecked, statusScan_status (by decide) (fun _ _ => rfl) (fun _ _ _ => rfl)]
  simp

theorem mem_ok_qcp_iff (hnd : W.Nodup) (hlt : ∀ s ∈ W, s < h.fresh) (hun : ∀ s ∈ W, h.status s = .unchecked)
    {fuel : Nat} (hm : makePlan fuel .qcp fileExists W h = some st) :
    s ∈ st.plan.ok ↔ Copyable fileExists W h s := by
  obtain ⟨cuts, hcuts, f, _⟩ := makePlan_filed hnd hlt hm
  obtain rfl : applyUnchecked W (newExistsScan fileExists W (scanned fileExists W h)) = st :=
    Option.some.inj hm
  have hold : ∀ t ∈ W, (scanned fileExists W h).heap.status t = .unchecked →
      fileExists ((scanned fileExists W h).heap.oldName t) = true := by
    intro t ht hu
    rw [(scanned_only hnd).oldName]
    exact ((unchecked_scanned_iff hnd).mp ⟨ht, hu⟩).2.2.2.1
  rw [f.ok_iff, makePlan_freeSpec hnd hlt (by decide) hm, hcuts (by decide)]
  simp only [List.map_nil, List.not_mem_nil, not_false_eq_true, true_and, or_false]
  have hrem : (s ∈ W ∧ (scanned fileExists W h).heap.status s = .unchecked) ↔ Remaining fileExists W h s :=
    remaining_iff hnd hun
  constructor
  · rintro ⟨hs, hok⟩
    rw [applyUnchecked_status, newExistsScan_status hold, (scanned_only hnd).newName] at hok
    by_cases hu : (scanned fileExists W h).heap.status s = .unchecked
    · obtain ⟨h1, h2, h3, h4⟩ := hrem.mp ⟨hs, hu⟩
      refine ⟨h1, h2, h3, h4, ?_⟩
      by_contra hex
      rw [if_neg (by simp [hs, hu, hex]), if_pos ⟨hs, hu, Bool.not_eq_false _ ▸ hex⟩] at hok
      cases hok
    · simp only [hs, hu, true_and, false_and, if_false] at hok
      rw [scanned_status hnd, if_pos ⟨hs, hun s hs⟩] at hok hu
      split at hok
      · cases hok
      · split at hok
        · cases hok
        · split at hok <;> cases hok
  · rintro ⟨h1, h2, h3, h4, h5⟩
    have hu := (hrem.mpr ⟨h1, h2, h3, h4⟩).2
    refine ⟨h1, ?_⟩
    rw [applyUnchecked_status, newExistsScan_status hold, (scanned_only hnd).newName]
    simp [h1, hu, h5, FileSpecStatus.isOk]

theorem makePlan_qcp_only (hnd : W.Nodup) {fuel : Nat} (hm : makePlan fuel .qcp fileExists W h = some st) :
    StatusOnly h st.heap :=
  (scanned_only hnd).trans (makePlan_marked (by decide) hm).only

end

/-! ### A run of a qcp plan -/

/-- The specs `order` can be copied in any order: each has a source and a free destination of its own and
waits for no other. -/
structure Copies {φ : Type} (fs₀ : FileSys φ) (h : Heap) (order : List SpecId) : Prop where
  nodup : order.Nodup
  new_inj : ∀ s ∈ order, ∀ t ∈ order, h.newName s = h.newName t → s = t
  source : ∀ s ∈ order, ∃ file, fs₀ (h.oldName s) = some file
  free : ∀ s ∈ order, fs₀ (h.newName s) = none
  status : ∀ s ∈ order, (h.status s).isOk = true
  prev : ∀ s ∈ order, h.prevSpec s = none
  next : ∀ s ∈ order, h.nextSpec s = none

/-- The state `w` of a run over `order` that `l` is left of. -/
structure Copying {φ : Type} (fs₀ : FileSys φ) (h : Heap) (order l : List SpecId) (w : ApplyState φ) :
    Prop where
  heap : w.heap = h
  nodup : l.Nodup
  subset : ∀ s ∈ l, s ∈ order
  copied : Table.Copied h.oldName h.newName (fun s => s ∈ order ∧ s ∉ l) fs₀ w.fs

section
variable {φ : Type} {fs₀ : FileSys φ} {h : Heap} {order kept rest l : List SpecId} {s : SpecId}
  {w : ApplyState φ} {fs : FileSys φ}

theorem freeFileSpec_unlinked (hp : h.prevSpec s = none) (hn : h.nextSpec s = none) :
    h.freeFileSpec s = h := by
  simp [Heap.freeFileSpec, hp, hn]

namespace Copying

theorem start (c : Copies fs₀ h order) (W : List SpecId) : Copying fs₀ h order order ⟨h, W, fs₀⟩ :=
  ⟨rfl, c.nodup, fun _ => id, .refl fun _ hs => hs.2 hs.1⟩

theorem fs_eq (i : Copying fs₀ h order l w) (c : Copies fs₀ h order) {n : CString} {file : φ}
    (hn : fs₀ n = some file) : w.fs n = some file :=
  i.copied.kept (fun s hs => c.free s hs.1) hn

theorem destination (i : Copying fs₀ h order l w) (c : Copies fs₀ h order) (hs : s ∈ l) :
    w.fs (h.newName s) = none := by
  rw [i.copied.other, c.free s (i.subset s hs)]
  rintro t ⟨ht, htl⟩ heq
  exact htl (c.new_inj t ht s (i.subset s hs) heq ▸ hs)

theorem complete (i : Copying fs₀ h order (kept ++ s :: rest) w) (c : Copies fs₀ h order)
    (hc : Completes .qcp false w s fs) : Copying fs₀ h order (kept ++ rest) (w.complete s fs) := by
  have hs : s ∈ kept ++ s :: rest := by simp
  have hso := i.subset s hs
  obtain ⟨hsout, hnd⟩ := List.nodup_cons.mp (List.nodup_middle.mp i.nodup)
  cases hc with
  | simulated hsim => cases hsim
  | performed _ file hfile =>
    rw [i.heap] at hfile ⊢
    obtain ⟨file₀, h₀⟩ := c.source s hso
    rw [i.fs_eq c h₀] at hfile
    obtain rfl := Option.some.inj hfile
    refine ⟨?_, hnd, fun t ht => i.subset t ((mem_remove_iff i.nodup).mp ht).1, ?_⟩
    · show w.heap.freeFileSpec s = h
      rw [i.heap, freeFileSpec_unlinked (c.prev s hso) (c.next s hso)]
    · have hcopy := i.copied.copy h₀ (w := s) fun t ht heq => by
        exact ht.2 (c.new_inj t ht.1 s hso heq ▸ hs)
      refine hcopy.congr fun t => ?_
      rw [mem_remove_iff i.nodup]
      constructor
      · rintro (⟨h1, h2⟩ | rfl)
        · exact ⟨h1, fun h => h2 h.1⟩
        · exact ⟨hso, fun h => h.2 rfl⟩
      · rintro ⟨h1, h2⟩
        by_cases hts : t = s
        · exact .inr hts
        · exact .inl ⟨h1, fun h => h2 ⟨h, hts⟩⟩

end Copying

theorem Copies.applyPlan (c : Copies fs₀ h order) (env : ApplyEnv) (plan : ApplyPlan) (W : List SpecId) :
    let r := applyPlan .qcp false env { plan with ok := order } ⟨h, W, fs₀⟩
    Copying fs₀ h order r.plan.ok r.state ∧
      ∀ l ∈ r.launched, l.fs l.newName = none ∧ ∀ n file, fs₀ n = some file → l.fs n = some file := by
  refine applyPlan_rule (I := fun l w => Copying fs₀ h order l w)
    (P := fun l => l.fs l.newName = none ∧ ∀ n file, fs₀ n = some file → l.fs n = some file)
    (fun kept s rest w fs i _ _ hc => i.complete c hc) (fun l s w i hs _ _ _ => ?_) env (.start c W)
  rw [i.heap]
  exact ⟨i.destination c hs, fun n file hn => i.fs_eq c hn⟩

/-- The specs that stay are those whose command failed. -/
theorem applyLoop_qcp_kept (hnd : order.Nodup) (hok : ∀ s ∈ order, (h.status s).isOk = true)
    (hprev : ∀ s ∈ order, h.prevSpec s = none) (hnext : ∀ s ∈ order, h.nextSpec s = none)
    (hsource : ∀ s ∈ order, ∃ file, w.fs (h.oldName s) = some file) (hheap : w.heap = h)
    (outcome : Nat → CommandResult) {i : Nat} (hi : order[i]? = some s) :
    s ∈ (applyLoop .qcp false order outcome w).kept ↔ outcome i ≠ .done := by
  induction order generalizing outcome w i with
  | nil => simp at hi
  | cons t rest ih =>
    obtain ⟨htout, hnd⟩ := List.nodup_cons.mp hnd
    obtain ⟨file, hfile⟩ := hsource t (by simp)
    have hready : ¬ ((w.heap.status t).isOk = false ∨ w.heap.prevSpec t ≠ none) := by
      rw [hheap]; simp [hok t (by simp), hprev t (by simp)]
    have hrest : ∀ w' : ApplyState φ, t ∉ (applyLoop .qcp false rest (fun i => outcome (i + 1)) w').kept :=
      fun w' hm => htout (applyLoop_kept_subset hm)
    have ih' : ∀ w' : ApplyState φ, _ := fun w' => ih (w := w') hnd (fun s hs => hok s (.tail _ hs))
      (fun s hs => hprev s (.tail _ hs)) (fun s hs => hnext s (.tail _ hs))
    rw [applyLoop]
    dsimp only
    rw [if_neg hready, if_neg (by simp)]
    by_cases hdone : outcome 0 = .done
    · have hperf : performCommand .qcp (outcome 0) (w.heap.oldName t) (w.heap.newName t) w.fs =
          (true, w.fs.put (h.newName t) file) := by simp [performCommand, hheap, hdone, hfile]
      rw [hperf]
      dsimp only
      cases i with
      | zero =>
        obtain rfl : t = s := by simpa using hi
        simp [hrest, hdone]
      | succ i =>
        refine ih' _ (fun u hu => ?_) ?_ _ (by simpa using hi)
        · show ∃ f, (w.fs.put (h.newName t) file) (h.oldName u) = some f
          rw [Table.put_apply]
          split
          · exact ⟨file, rfl⟩
          · exact hsource u (.tail _ hu)
        · show w.heap.freeFileSpec t = h
          rw [hheap, freeFileSpec_unlinked (hprev t (by simp)) (hnext t (by simp))]
    · have hperf : performCommand .qcp (outcome 0) (w.heap.oldName t) (w.heap.newName t) w.fs =
          (false, w.fs) := by
        rw [performCommand]
        exact fun _ ho _ => hdone ho
      rw [hperf]
      dsimp only
      cases i with
      | zero =>
        obtain rfl : t = s := by simpa using hi
        simp [hdone]
      | succ i =>
        have hst : s ≠ t := by
          rintro rfl
          exact htout (List.mem_of_getElem? (by simpa using hi))
        rw [List.mem_cons, or_iff_right hst]
        exact ih' _ (fun u hu => hsource u (.tail _ hu)) hheap _ (by simpa using hi)

end

/-! ### The plan and its runs -/

/-- The plan of a fresh list in qcp mode: which specs are copied, and what every run over them, in any
order and with any failures, does to the files. -/
theorem makePlan_qcp_copied {φ : Type} (fs₀ : FileSys φ) {W : List SpecId} {h : Heap} (hnd : W.Nodup)
    (hlt : ∀ s ∈ W, s < h.fresh)
    (hfresh : ∀ s ∈ W, h.status s = .unchecked ∧ h.prevSpec s = none ∧ h.nextSpec s = none) :
    ∃ st, (∀ fuel, makePlan fuel .qcp fs₀.contains W h = some st) ∧ st.plan.ok.Nodup ∧
      (∀ s, s ∈ st.plan.ok ↔ Copyable fs₀.contains W h s) ∧
      ∀ order : List SpecId, order.Perm st.plan.ok → ∀ env : ApplyEnv,
        let r := applyPlan .qcp false env { st.plan with ok := order } ⟨st.heap, W, fs₀⟩
        (∀ l ∈ r.launched, l.fs l.newName = none ∧ ∀ n file, fs₀ n = some file → l.fs n = some file) ∧
        (∀ n file, fs₀ n = some file → r.state.fs n = some file) ∧
        (env.cwdTo = true → ∀ i s, order[i]? = some s → (s ∈ r.plan.ok ↔ env.outcome i ≠ .done)) ∧
        Table.Copied h.oldName h.newName (fun s => s ∈ order ∧ s ∉ r.plan.ok) fs₀ r.state.fs ∧
        ∀ order' : List SpecId, order'.Perm st.plan.ok → ∀ env' : ApplyEnv,
          let r' := applyPlan .qcp false env' { st.plan with ok := order' } ⟨st.heap, W, fs₀⟩
          (∀ s, s ∈ r.plan.ok ↔ s ∈ r'.plan.ok) → r.state.fs = r'.state.fs := by
  have hun : ∀ s ∈ W, h.status s = .unchecked := fun s hs => (hfresh s hs).1
  obtain ⟨st, hst⟩ : ∃ st, ∀ fuel, makePlan fuel .qcp fs₀.contains W h = some st := ⟨_, fun _ => rfl⟩
  have only := makePlan_qcp_only hnd (hst 0)
  have hok : ∀ {s}, s ∈ st.plan.ok ↔ Copyable fs₀.contains W h s := mem_ok_qcp_iff hnd hlt hun (hst 0)
  obtain ⟨_, _, f, _⟩ := makePlan_filed hnd hlt (hst 0)
  have hcopies : ∀ {order : List SpecId}, order.Perm st.plan.ok → Copies fs₀ st.heap order := by
    intro order hperm
    have hmem : ∀ s ∈ order, s ∈ st.plan.ok := fun s hs => hperm.mem_iff.mp hs
    have hcopy : ∀ s ∈ order, Copyable fs₀.contains W h s := fun s hs => hok.mp (hmem s hs)
    refine ⟨hperm.nodup_iff.mpr f.ok_nodup, fun s hs t ht heq => ?_, fun s hs => ?_, fun s hs => ?_,
      fun s hs => f.isOk_of_mem (hmem s hs), fun s hs => ?_, fun s hs => ?_⟩
    · rw [only.newName] at heq
      by_contra hne
      exact (hcopy s hs).alone ⟨t, (hcopy t ht).mem, Ne.symm hne, heq.symm⟩
    · rw [only.oldName]
      exact Option.isSome_iff_exists.mp (hcopy s hs).old_exists
    · rw [only.newName]
      exact Option.not_isSome_iff_eq_none.mp (Bool.not_eq_true _ ▸ (hcopy s hs).new_free)
    · rw [only.prevSpec]; exact (hfresh s (hcopy s hs).mem).2.1
    · rw [only.nextSpec]; exact (hfresh s (hcopy s hs).mem).2.2
  refine ⟨st, hst, f.ok_nodup, fun s => hok, fun order hperm env => ?_⟩
  have c := hcopies hperm
  obtain ⟨i, hl⟩ := c.applyPlan env st.plan W
  have hcopied := i.copied
  rw [only.oldName, only.newName] at hcopied
  refine ⟨hl, fun n file hn => i.fs_eq c hn, fun hto j s hj => ?_, hcopied,
    fun order' hperm' env' hsame => ?_⟩
  · have hne : order ≠ [] := by rintro rfl; simp at hj
    simp only [applyPlan, hne, hto, Bool.not_true, if_false]
    exact applyLoop_qcp_kept c.nodup c.status c.prev c.next c.source rfl env.outcome hj
  · obtain ⟨i', _⟩ := (hcopies hperm').applyPlan env' st.plan W
    refine i.copied.unique (i'.copied.congr fun s => ?_)
    rw [hsame s, (hperm'.trans hperm.symm).mem_iff]

/-- The file `a` is copied to `c`, and `b` is not, as its new name is `a`. -/
theorem makePlan_qcp_copied_two :
    let h := (Heap.empty.newFileSpec ⟨[97], [99], none, none, .unchecked⟩).newFileSpec
      ⟨[98], [97], none, none, .unchecked⟩
    let fs₀ : FileSys Nat := (Table.empty.put [97] 1).put [98] 2
    ∃ st, (∀ fuel, makePlan fuel .qcp fs₀.contains [0, 1] h = some st) ∧
      ∀ s, s ∈ st.plan.ok ↔ Copyable fs₀.contains [0, 1] h s := by
  intro h fs₀
  obtain ⟨st, hst, _, hok, _⟩ := makePlan_qcp_copied fs₀ (W := [0, 1]) (h := h) (by decide) (by decide)
    (by decide)
  exact ⟨st, hst, hok⟩

end Renameutils
