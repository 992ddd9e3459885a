import Renameutils.ApplyPlaces
import Renameutils.PlanCopy

/-!
# Simulated runs

With `simulate` set `apply_plan` starts no command and does everything else. A simulated run over a fresh plan
leaves the specs, `work_files` and the plan as the run would in which every command does its work
(`makePlan_simulated`): the plan is used up, and applying it again renames nothing.
-/

namespace Renameutils
open Chain

section
variable {φ : Type} {program : Program} {w : ApplyState φ} {plan : ApplyPlan} {env : ApplyEnv}

/-- A simulated run beside one in which every command does its work: `I` holds along the second one, and says
that each command has its source. -/
theorem applyLoop_simulated {I : List SpecId → ApplyState φ → Prop}
    (hstep : ∀ kept s rest w fs, I (kept ++ s :: rest) w → (w.heap.status s).isOk = true →
      w.heap.prevSpec s = none → Completes program false w s fs → I (kept ++ rest) (w.complete s fs))
    (hsource : ∀ l s w, I l w → s ∈ l → w.heap.prevSpec s = none → ∃ file, w.fs (w.heap.oldName s) = some file)
    {kept rest : List SpecId} {outcome : Nat → CommandResult} (hdone : ∀ i, outcome i = .done)
    (outcome' : Nat → CommandResult) (hI : I (kept ++ rest) w) (fs : FileSys φ) :
    (applyLoop program false rest outcome w).fail = false ∧
      applyLoop program true rest outcome' { w with fs := fs } =
        ⟨{ (applyLoop program false rest outcome w).state with fs := fs },
          (applyLoop program false rest outcome w).kept, false, []⟩ := by
  induction rest generalizing kept outcome outcome' w with
  | nil => exact ⟨rfl, rfl⟩
  | cons s rest ih =>
    by_cases hready : (w.heap.status s).isOk = false ∨ w.heap.prevSpec s ≠ none
    · have hI' : I ((kept ++ [s]) ++ rest) w := List.append_cons kept s rest ▸ hI
      obtain ⟨hfail, hrun⟩ := ih (fun i => hdone (i + 1)) (fun i => outcome' (i + 1)) hI'
      simp only [applyLoop, if_pos hready]
      rw [hrun]
      exact ⟨hfail, rfl⟩
    · obtain ⟨hok, hprev⟩ : (w.heap.status s).isOk = true ∧ w.heap.prevSpec s = none := by simpa using hready
      obtain ⟨file, hfile⟩ := hsource _ s w hI (by simp) hprev
      obtain ⟨hfail, hrun⟩ := ih (fun i => hdone (i + 1)) (fun i => outcome' (i + 1))
        (hstep kept s rest w _ hI hok hprev (.performed rfl file hfile))
      simp only [applyLoop, if_neg hready, hdone 0, performCommand, hfile, if_true, Bool.false_eq_true, if_false]
      exact ⟨hfail, hrun⟩

theorem applyRuns_nil (simulate : Bool) (envs : List ApplyEnv) (hnil : plan.ok = []) :
    applyRuns program simulate envs plan w = ⟨w, plan, true, []⟩ := by
  induction envs with
  | nil => rfl
  | cons env envs ih =>
    have hplan : applyPlan program simulate env plan w = ⟨w, plan, true, []⟩ := if_pos hnil
    rw [applyRuns, hplan]
    dsimp only
    rw [ih]
    rfl

/-- What a simulated run does, beside the run in which every command does its work. -/
structure Simulated (program : Program) (env : ApplyEnv) (outcome : Nat → CommandResult) (plan : ApplyPlan)
    (w : ApplyState φ) : Prop where
  same : applyPlan program true { env with outcome := outcome } plan w =
    ⟨{ (applyPlan program false env plan w).state with fs := w.fs }, (applyPlan program false env plan w).plan,
      (applyPlan program false env plan w).returned, []⟩
  returned : (applyPlan program false env plan w).returned = (env.cwdTo && env.cwdFrom || plan.ok = [])
  usedUp : env.cwdTo = true → ∀ simulate envs,
    let r := applyPlan program true { env with outcome := outcome } plan w
    applyRuns program simulate envs r.plan r.state = ⟨r.state, r.plan, true, []⟩

theorem Simulated.of_rule {I : List SpecId → ApplyState φ → Prop}
    (hstep : ∀ kept s rest w fs, I (kept ++ s :: rest) w → (w.heap.status s).isOk = true →
      w.heap.prevSpec s = none → Completes program false w s fs → I (kept ++ rest) (w.complete s fs))
    (hsource : ∀ l s w, I l w → s ∈ l → w.heap.prevSpec s = none → ∃ file, w.fs (w.heap.oldName s) = some file)
    (hdone : ∀ i, env.outcome i = .done) (outcome : Nat → CommandResult) (hI : I plan.ok w)
    (sorted : Sorted w.heap plan.ok) : Simulated program env outcome plan w := by
  by_cases hnil : plan.ok = []
  · have hplan : ∀ simulate env, applyPlan program simulate env plan w = ⟨w, plan, true, []⟩ :=
      fun _ _ => if_pos hnil
    refine ⟨by rw [hplan, hplan], by simp [hplan, hnil], fun _ simulate envs => ?_⟩
    rw [hplan]
    exact applyRuns_nil simulate envs hnil
  cases hto : env.cwdTo with
  | false => exact ⟨by simp [applyPlan, hnil, hto], by simp [applyPlan, hnil, hto],
      fun h => Bool.noConfusion (hto.symm.trans h)⟩
  | true =>
    have hI' : I ([] ++ plan.ok) w := hI
    obtain ⟨hfail, hrun⟩ := applyLoop_simulated hstep hsource hdone outcome hI' w.fs
    have hsim : applyLoop program true plan.ok outcome w = _ := hrun
    refine ⟨?_, ?_, fun _ simulate envs => applyRuns_nil simulate envs ?_⟩
    · simp only [applyPlan, hnil, hto, if_false, Bool.not_true, Bool.false_eq_true, hsim, hfail]
    · simp [applyPlan, hnil, hto, hfail]
    · simp only [applyPlan, hnil, hto, if_false, Bool.not_true, Bool.false_eq_true, hsim]
      exact sorted.kept_eq_nil hfail

end

section
variable {φ : Type} {fs₀ : FileSys φ} {W : List SpecId} {h : Heap} {st : PlanState}

theorem makePlan_copies {fuel : Nat} (hst : makePlan fuel .qcp fs₀.contains W h = some st) (hnd : W.Nodup)
    (hlt : ∀ s ∈ W, s < h.fresh)
    (hfresh : ∀ s ∈ W, h.status s = .unchecked ∧ h.prevSpec s = none ∧ h.nextSpec s = none) :
    Copies fs₀ st.heap st.plan.ok := by
  have only := makePlan_qcp_only hnd hst
  have hok := fun {s} => mem_ok_qcp_iff hnd hlt (fun s hs => (hfresh s hs).1) hst (s := s)
  obtain ⟨_, _, f, _⟩ := makePlan_filed hnd hlt hst
  refine ⟨f.ok_nodup, fun s hs t ht heq => ?_, fun s hs => ?_, fun s hs => ?_, fun s hs => f.isOk_of_mem hs,
    fun s hs => ?_, fun s hs => ?_⟩
  · rw [only.newName] at heq
    by_contra hne
    exact (hok.mp hs).alone ⟨t, (hok.mp ht).mem, Ne.symm hne, heq.symm⟩
  · rw [only.oldName]
    exact Option.isSome_iff_exists.mp (hok.mp hs).old_exists
  · rw [only.newName]
    exact Option.not_isSome_iff_eq_none.mp (Bool.not_eq_true _ ▸ (hok.mp hs).new_free)
  · rw [only.prevSpec]
    exact (hfresh s (hok.mp hs).mem).2.1
  · rw [only.nextSpec]
    exact (hfresh s (hok.mp hs).mem).2.2

/-- A simulated run over a fresh plan, in qmv or qcp mode. -/
theorem makePlan_simulated {program : Program} (hprogram : program ≠ .other) {fuel : Nat}
    (hst : makePlan fuel program fs₀.contains W h = some st) (hnd : W.Nodup) (hlt : ∀ s ∈ W, s < h.fresh)
    (hfresh : ∀ s ∈ W, h.status s = .unchecked ∧ h.prevSpec s = none ∧ h.nextSpec s = none)
    (hold : ∀ s ∈ W, ∀ t ∈ W, h.oldName s = h.oldName t → s = t) {env : ApplyEnv}
    (hdone : ∀ i, env.outcome i = .done) (outcome : Nat → CommandResult) :
    Simulated program env outcome st.plan ⟨st.heap, W, fs₀⟩ := by
  have hun : ∀ s ∈ W, h.status s = .unchecked := fun s hs => (hfresh s hs).1
  have hprev : ∀ s ∈ W, h.prevSpec s = none := fun s hs => (hfresh s hs).2.1
  cases program with
  | other => exact absurd rfl hprogram
  | qmv =>
    obtain ⟨ts, T, pending, cuts, errs, o⟩ := makePlan_qmv hnd hlt hst
    have hstart := Moving.start o hnd hlt hun hprev (fun s hs => (hfresh s hs).2.2) hold
    refine .of_rule (I := fun ok w => ∃ loc, Moving W h st cuts fs₀ loc ok w) (Moving.step o hnd hlt) ?_ hdone
      outcome ⟨_, hstart⟩ hstart.sorted
    rintro l s w ⟨loc, m⟩ hs hp
    obtain ⟨v, hv, hloc, _⟩ := m.owner o hnd hlt hs hp
    rw [← hloc]
    exact m.relocated.at_some hv
  | qcp =>
    have c := makePlan_copies hst hnd hlt hfresh
    have sorted : Sorted st.heap st.plan.ok :=
      ⟨c.nodup, c.status, fun s hs p hp => absurd (hp.symm.trans (c.prev s hs)) (by simp)⟩
    refine .of_rule (I := fun l w => Copying fs₀ st.heap st.plan.ok l w)
      (fun kept s rest w fs i _ _ hc => i.complete c hc) ?_ hdone outcome (.start c W) sorted
    intro l s w i hs _
    obtain ⟨file, hfile⟩ := c.source s (i.subset s hs)
    rw [i.heap]
    exact ⟨file, i.fs_eq c hfile⟩

end

/-- A circular set, simulated and then applied: nothing is renamed. -/
theorem makePlan_simulated_swap :
    let fs : FileSys Nat := (Table.empty.put [97] 1).put [98] 2
    let h := (Heap.empty.newFileSpec ⟨[97], [98], none, none, .unchecked⟩).newFileSpec
      ⟨[98], [97], none, none, .unchecked⟩
    ∃ st, makePlan 10 .qmv fs.contains [0, 1] h = some st ∧ st.plan.ok.length = 3 ∧
      Simulated .qmv ⟨true, true, fun _ => .done⟩ (fun _ => .failed) st.plan ⟨st.heap, [0, 1], fs⟩ := by
  intro fs h
  have hm : ((makePlan 10 .qmv fs.contains [0, 1] h).any fun st => st.plan.ok.length = 3) = true := by decide
  obtain ⟨st, hst, hlength⟩ := (Option.any_eq_true _ _).mp hm
  exact ⟨st, hst, by simpa using hlength, makePlan_simulated (by decide) hst (by decide) (by decide) (by decide)
    (by decide) (fun _ => rfl) _⟩

end Renameutils
