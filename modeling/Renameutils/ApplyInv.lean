import Renameutils.Apply
import Renameutils.PlanTopologic

/-!
# Invariants of `apply_plan`

`applyLoop_rule` is the induction over a run of `apply_plan`. `Safe`: a spec of `plan->ok` that waits
for no other has a free destination, so that no command finds its destination there. `Sorted`: the
specs wait for specs that stand before them, so that a run without a failure leaves none.
-/

namespace Renameutils
open Chain

/-! ### `free_file_spec` of a spec that waits for no other -/

section
variable {h : Heap} {s : SpecId}

theorem freeFileSpec_eq (hp : h.prevSpec s = none) :
    h.freeFileSpec s = { h with prevSpec := (h.freeFileSpec s).prevSpec } ∧
      ∀ t, (h.freeFileSpec s).prevSpec t = if h.nextSpec s = some t then none else h.prevSpec t := by
  simp only [Heap.freeFileSpec, hp]
  cases hn : h.nextSpec s with
  | none => simp
  | some u =>
    refine ⟨rfl, fun t => ?_⟩
    simp only [Heap.setPrev, Function.update_apply, Option.some.injEq, eq_comm]

theorem freeFileSpec_oldName (hp : h.prevSpec s = none) : (h.freeFileSpec s).oldName = h.oldName := by
  rw [(freeFileSpec_eq hp).1]

theorem freeFileSpec_newName (hp : h.prevSpec s = none) : (h.freeFileSpec s).newName = h.newName := by
  rw [(freeFileSpec_eq hp).1]

theorem freeFileSpec_nextSpec (hp : h.prevSpec s = none) : (h.freeFileSpec s).nextSpec = h.nextSpec := by
  rw [(freeFileSpec_eq hp).1]

theorem freeFileSpec_status (hp : h.prevSpec s = none) : (h.freeFileSpec s).status = h.status := by
  rw [(freeFileSpec_eq hp).1]

end

/-! ### The induction over a run -/

section
variable {φ : Type} {program : Program} {simulate : Bool} {w : ApplyState φ} {s : SpecId}

/-- The files after the command of `s` has done its work; nothing is done to them when simulating. -/
inductive Completes (program : Program) (simulate : Bool) (w : ApplyState φ) (s : SpecId) :
    FileSys φ → Prop
  | simulated (hsim : simulate = true) : Completes program simulate w s w.fs
  | performed (hsim : simulate = false) (file : φ) (hfile : w.fs (w.heap.oldName s) = some file) :
    Completes program simulate w s
      (((if program = .qmv then w.fs.remove (w.heap.oldName s) else w.fs)).put (w.heap.newName s) file)

theorem performCommand_true {result : CommandResult} {oldName newName : CString} {fs fs' : FileSys φ}
    (h : performCommand program result oldName newName fs = (true, fs')) :
    result = .done ∧ ∃ file, fs oldName = some file ∧
      fs' = ((if program = .qmv then fs.remove oldName else fs)).put newName file := by
  unfold performCommand at h
  split at h
  · rename_i file hfile
    cases h
    exact ⟨rfl, file, hfile, rfl⟩
  · cases h

theorem performCommand_false {result : CommandResult} {oldName newName : CString} {fs fs' : FileSys φ}
    (h : performCommand program result oldName newName fs = (false, fs')) : fs' = fs := by
  unfold performCommand at h
  split at h
  · cases h
  · cases h; rfl

/-- What completing a spec that waits for no other keeps, a run keeps; and what holds of the commands
of such specs holds of all that were started. -/
theorem applyLoop_rule {I : List SpecId → ApplyState φ → Prop} {P : Launch φ → Prop}
    (hstep : ∀ kept s rest w fs, I (kept ++ s :: rest) w → (w.heap.status s).isOk = true →
      w.heap.prevSpec s = none → Completes program simulate w s fs → I (kept ++ rest) (w.complete s fs))
    (hlaunch : ∀ l s w, I l w → s ∈ l → (w.heap.status s).isOk = true → w.heap.prevSpec s = none →
      simulate = false → P ⟨w.heap.oldName s, w.heap.newName s, w.fs⟩)
    {kept rest : List SpecId} (outcome : Nat → CommandResult) (hI : I (kept ++ rest) w) :
    I (kept ++ (applyLoop program simulate rest outcome w).kept)
      (applyLoop program simulate rest outcome w).state ∧
    ∀ l ∈ (applyLoop program simulate rest outcome w).launched, P l := by
  induction rest generalizing kept outcome w with
  | nil => exact ⟨hI, by simp [applyLoop]⟩
  | cons s rest ih =>
    have hskip := ih (w := w) (fun i => outcome (i + 1)) (List.append_cons kept s rest ▸ hI)
    rw [List.append_assoc] at hskip
    rw [applyLoop]
    dsimp only
    split
    · exact hskip
    rename_i hready
    simp only [not_or, Bool.not_eq_false, not_not] at hready
    obtain ⟨hok, hprev⟩ := hready
    split
    · exact ih _ (hstep kept s rest w w.fs hI hok hprev (.simulated ‹_›))
    rename_i hsim
    have hl : ∀ l ∈ (if outcome 0 = .notStarted then [] else
        [(⟨w.heap.oldName s, w.heap.newName s, w.fs⟩ : Launch φ)]), P l := by
      intro l hl
      split at hl
      · cases hl
      · obtain rfl := List.mem_singleton.mp hl
        exact hlaunch _ s w hI (by simp) hok hprev (by simpa using hsim)
    split
    · rename_i fs' hperf
      obtain ⟨_, file, hfile, rfl⟩ := performCommand_true hperf
      obtain ⟨h1, h2⟩ := ih (fun i => outcome (i + 1))
        (hstep kept s rest w _ hI hok hprev (.performed (by simpa using hsim) file hfile))
      refine ⟨h1, fun l hm => ?_⟩
      rcases List.mem_append.mp hm with hm | hm
      · exact hl l hm
      · exact h2 l hm
    · rename_i fs' hperf
      obtain rfl := performCommand_false hperf
      refine ⟨hskip.1, fun l hm => ?_⟩
      rcases List.mem_append.mp hm with hm | hm
      · exact hl l hm
      · exact hskip.2 l hm

theorem applyLoop_kept_subset {rest : List SpecId} {outcome : Nat → CommandResult}
    (hs : s ∈ (applyLoop program simulate rest outcome w).kept) : s ∈ rest := by
  have hrule : ∀ t ∈ [] ++ (applyLoop program simulate rest outcome w).kept, t ∈ rest :=
    (applyLoop_rule (I := fun l _ => ∀ t ∈ l, t ∈ rest) (P := fun _ => True)
      (fun kept t rest' _ _ hI _ _ _ u hu => hI u (List.mem_append.mpr
        ((List.mem_append.mp hu).imp_right (List.mem_cons_of_mem t))))
      (fun _ _ _ _ _ _ _ _ => trivial) outcome (fun _ => id)).1
  exact hrule s hs

/-- The rule for a whole call of `apply_plan`. -/
theorem applyPlan_rule {I : List SpecId → ApplyState φ → Prop} {P : Launch φ → Prop}
    (hstep : ∀ kept s rest w fs, I (kept ++ s :: rest) w → (w.heap.status s).isOk = true →
      w.heap.prevSpec s = none → Completes program simulate w s fs → I (kept ++ rest) (w.complete s fs))
    (hlaunch : ∀ l s w, I l w → s ∈ l → (w.heap.status s).isOk = true → w.heap.prevSpec s = none →
      simulate = false → P ⟨w.heap.oldName s, w.heap.newName s, w.fs⟩)
    (env : ApplyEnv) {plan : ApplyPlan} (hI : I plan.ok w) :
    I (applyPlan program simulate env plan w).plan.ok (applyPlan program simulate env plan w).state ∧
    ∀ l ∈ (applyPlan program simulate env plan w).launched, P l := by
  unfold applyPlan
  split
  · exact ⟨hI, by simp⟩
  · split
    · exact ⟨hI, by simp⟩
    · rw [← List.nil_append plan.ok] at hI
      exact applyLoop_rule hstep hlaunch env.outcome hI

theorem applyPlan_plan (program : Program) (simulate : Bool) (env : ApplyEnv) (plan : ApplyPlan)
    (w : ApplyState φ) : (applyPlan program simulate env plan w).plan =
      { plan with ok := (applyPlan program simulate env plan w).plan.ok } := by
  unfold applyPlan
  split
  · rfl
  · split <;> rfl

/-- The rule for any number of calls. -/
theorem applyRuns_rule {I : List SpecId → ApplyState φ → Prop} {P : Launch φ → Prop}
    (hstep : ∀ kept s rest w fs, I (kept ++ s :: rest) w → (w.heap.status s).isOk = true →
      w.heap.prevSpec s = none → Completes program simulate w s fs → I (kept ++ rest) (w.complete s fs))
    (hlaunch : ∀ l s w, I l w → s ∈ l → (w.heap.status s).isOk = true → w.heap.prevSpec s = none →
      simulate = false → P ⟨w.heap.oldName s, w.heap.newName s, w.fs⟩)
    (envs : List ApplyEnv) {plan : ApplyPlan} (hI : I plan.ok w) :
    I (applyRuns program simulate envs plan w).plan.ok (applyRuns program simulate envs plan w).state ∧
    ∀ l ∈ (applyRuns program simulate envs plan w).launched, P l := by
  induction envs generalizing plan w with
  | nil => exact ⟨hI, by simp [applyRuns]⟩
  | cons env envs ih =>
    obtain ⟨hI', hl⟩ := applyPlan_rule hstep hlaunch env hI
    obtain ⟨hI'', hl'⟩ := ih hI'
    refine ⟨hI'', fun l hm => ?_⟩
    rcases List.mem_append.mp hm with hm | hm
    · exact hl l hm
    · exact hl' l hm

end

/-! ### Free destinations -/

section
variable {φ : Type}

/-- The specs `ok` of a plan can be renamed in this order without moving onto a file. -/
structure Safe (fs : FileSys φ) (h : Heap) (ok : List SpecId) : Prop where
  nodup : ok.Nodup
  new_inj : ∀ s ∈ ok, ∀ t ∈ ok, h.newName s = h.newName t → s = t
  free : ∀ s ∈ ok, h.prevSpec s = none → fs (h.newName s) = none
  next : ∀ f ∈ ok, ∀ s ∈ ok, h.nextSpec f = some s → h.prevSpec s = none ∨ h.oldName f = h.newName s

theorem Safe.complete {fs : FileSys φ} {h : Heap} {kept rest : List SpecId} {s : SpecId} {file : φ}
    (safe : Safe fs h (kept ++ s :: rest)) (hp : h.prevSpec s = none) :
    Safe ((fs.remove (h.oldName s)).put (h.newName s) file) (h.freeFileSpec s) (kept ++ rest) := by
  have hsub : ∀ t ∈ kept ++ rest, t ∈ kept ++ s :: rest := fun t ht => ((mem_remove_iff safe.nodup).mp ht).1
  have hs : s ∈ kept ++ s :: rest := by simp
  obtain ⟨hsout, hnd⟩ := List.nodup_cons.mp (List.nodup_middle.mp safe.nodup)
  refine ⟨hnd, ?_, fun t ht hpt => ?_, fun f hf t ht hn => ?_⟩
  · rw [freeFileSpec_newName hp]
    exact fun a ha b hb => safe.new_inj a (hsub a ha) b (hsub b hb)
  · rw [(freeFileSpec_eq hp).2] at hpt
    rw [freeFileSpec_newName hp]
    have hnew : h.newName t ≠ h.newName s := fun heq =>
      hsout (safe.new_inj t (hsub t ht) s hs heq ▸ ht)
    rw [Table.put_ne _ _ hnew, Table.remove_apply]
    split
    · rfl
    · rename_i hold
      by_cases hpt' : h.prevSpec t = none
      · exact safe.free t (hsub t ht) hpt'
      · have hn : h.nextSpec s = some t := by
          by_contra hn; rw [if_neg hn] at hpt; exact hpt' hpt
        exact absurd ((safe.next s hs t (hsub t ht) hn).resolve_left hpt').symm hold
  · rw [freeFileSpec_nextSpec hp] at hn
    rw [(freeFileSpec_eq hp).2, freeFileSpec_oldName hp, freeFileSpec_newName hp]
    refine (safe.next f (hsub f hf) t (hsub t ht) hn).imp_left fun h => ?_
    rw [h, ite_self]

theorem Safe.applyPlan {w : ApplyState φ} {env : ApplyEnv} {plan : ApplyPlan}
    (safe : Safe w.fs w.heap plan.ok) :
    let r := applyPlan .qmv false env plan w
    Safe r.state.fs r.state.heap r.plan.ok ∧ ∀ l ∈ r.launched, l.fs l.newName = none := by
  refine applyPlan_rule (I := fun ok w => Safe w.fs w.heap ok) (P := fun l => l.fs l.newName = none)
    (fun kept s rest w fs hI _ hp hc => ?_) (fun l s w hI hs _ hp _ => hI.free s hs hp) env safe
  cases hc with
  | simulated h => cases h
  | performed _ file _ => exact hI.complete hp

end

/-! ### Order -/

/-- The specs `ok` of a plan wait for specs that stand before them, and these know it. -/
structure Sorted (h : Heap) (ok : List SpecId) : Prop where
  nodup : ok.Nodup
  status : ∀ s ∈ ok, (h.status s).isOk = true
  prev : ∀ s ∈ ok, ∀ p, h.prevSpec s = some p → Before ok p s ∧ h.nextSpec p = some s

theorem Sorted.complete {h : Heap} {kept rest : List SpecId} {s : SpecId}
    (sorted : Sorted h (kept ++ s :: rest)) (hp : h.prevSpec s = none) :
    Sorted (h.freeFileSpec s) (kept ++ rest) := by
  have hsub : ∀ t ∈ kept ++ rest, t ∈ kept ++ s :: rest := fun t ht =>
    ((mem_remove_iff sorted.nodup).mp ht).1
  obtain ⟨hsout, hnd⟩ := List.nodup_cons.mp (List.nodup_middle.mp sorted.nodup)
  refine ⟨hnd, fun t ht => ?_, fun t ht p hpt => ?_⟩
  · rw [freeFileSpec_status hp]; exact sorted.status t (hsub t ht)
  · rw [(freeFileSpec_eq hp).2] at hpt
    split at hpt
    · cases hpt
    · rename_i hn
      obtain ⟨hb, hnp⟩ := sorted.prev t (hsub t ht) p hpt
      rw [freeFileSpec_nextSpec hp]
      refine ⟨hb.remove ?_ ?_, hnp⟩
      · rintro rfl; exact hn hnp
      · rintro rfl; exact hsout ht

theorem Sorted.kept_eq_nil {φ : Type} {program : Program} {simulate : Bool} {l : List SpecId}
    {outcome : Nat → CommandResult} {w : ApplyState φ} (sorted : Sorted w.heap l)
    (hfail : (applyLoop program simulate l outcome w).fail = false) :
    (applyLoop program simulate l outcome w).kept = [] := by
  induction l generalizing outcome w with
  | nil => rfl
  | cons s rest ih =>
    have hok := sorted.status s (by simp)
    have hp : w.heap.prevSpec s = none := by
      cases hp : w.heap.prevSpec s with
      | none => rfl
      | some p => exact absurd (sorted.prev s (by simp) p hp).1 (Before.not_head sorted.nodup)
    have hrest : Sorted (w.heap.freeFileSpec s) rest := by
      rw [← List.nil_append rest]
      exact Sorted.complete (by simpa using sorted) hp
    have hready : ¬ ((w.heap.status s).isOk = false ∨ w.heap.prevSpec s ≠ none) := by simp [hok, hp]
    rw [applyLoop] at hfail ⊢
    dsimp only at hfail ⊢
    rw [if_neg hready] at hfail ⊢
    split at hfail
    · rename_i hsim
      rw [if_pos hsim]
      exact ih (w := w.complete s w.fs) hrest hfail
    · rename_i hsim
      rw [if_neg hsim]
      split at hfail
      · rename_i fs' _
        exact ih (w := w.complete s fs') hrest hfail
      · cases hfail

theorem Sorted.ok_eq_nil {φ : Type} {program : Program} {simulate : Bool} {env : ApplyEnv}
    {plan : ApplyPlan} {w : ApplyState φ} (sorted : Sorted w.heap plan.ok)
    (htrue : (applyPlan program simulate env plan w).returned = true) :
    (applyPlan program simulate env plan w).plan.ok = [] := by
  unfold applyPlan at htrue ⊢
  split at htrue
  · rename_i hnil
    rw [if_pos hnil, hnil]
  · rename_i hne
    split at htrue
    · cases htrue
    · rename_i hto
      rw [if_neg hne, if_neg hto]
      simp only [Bool.and_eq_true, Bool.not_eq_true'] at htrue
      exact sorted.kept_eq_nil htrue.2

end Renameutils
