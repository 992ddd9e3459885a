import Renameutils.ApplySimulate

/-!
# Renames that are possible

A fresh qmv plan has no errors exactly when the renames are `Possible`, which speaks of the names alone: no two
new names are the same, the files exist, and a new name that is taken is the old name of a listed file. A run
over it in which nothing fails returns true, and then every listed file has been moved (`AllMoved`).
-/

namespace Renameutils
open Chain Relation

structure Possible (fileExists : CString → Bool) (W : List SpecId) (h : Heap) : Prop where
  new_inj : ∀ s ∈ W, ∀ t ∈ W, h.newName s = h.newName t → s = t
  old_exists : ∀ s ∈ W, fileExists (h.oldName s) = true
  listed : ∀ s ∈ W, fileExists (h.newName s) = true → ∃ t ∈ W, h.oldName t = h.newName s

/-- `fs'` has the files of `fs`, those of the listed specs under their new names, all others under their own. -/
def AllMoved {φ : Type} (W : List SpecId) (h : Heap) (fs fs' : FileSys φ) : Prop :=
  ∃ ρ, Table.Renames ρ fs fs' ∧ (∀ s ∈ W, ρ (h.oldName s) = h.newName s) ∧
    ∀ n, (∀ s ∈ W, h.oldName s ≠ n) → ρ n = n

section
variable {fileExists : CString → Bool} {W : List SpecId} {h : Heap} {st : PlanState} {cuts : List Cut}
  {ts : TopologicState} {T pending errs : List SpecId} {s t : SpecId}

theorem Possible.not_sharesNew (p : Possible fileExists W h) (hs : s ∈ W) : ¬ SharesNew W h s := by
  rintro ⟨t, ht, hne, heq⟩
  exact hne (p.new_inj t ht s hs heq)

/-- When the renames are possible no chain ends at a name that is taken. -/
theorem Possible.free_of_endsAt (p : Possible fileExists W h) (hR : Remaining fileExists W h s)
    (hend : EndsAt (Onto fileExists W h) s t) : fileExists (h.newName t) = false := by
  have hRt : Remaining fileExists W h t := by
    rcases ReflTransGen.cases_tail hend.1 with rfl | ⟨u, _, _, ht, _⟩
    · exact hR
    · exact ht
  by_contra htaken
  obtain ⟨u, hu, hold⟩ := p.listed t hRt.mem (by simpa using htaken)
  have hne : h.oldName u ≠ h.newName u := by
    intro heq
    obtain rfl := p.new_inj u hu t hRt.mem (heq.symm.trans hold)
    exact hRt.old_ne heq
  exact hend.2 u ⟨hRt, ⟨hu, p.not_sharesNew hu, p.old_exists u hu, hne⟩, hold⟩

theorem Ordered.error_nil_iff (o : Ordered fileExists W h ts T pending cuts errs st) (hnd : W.Nodup)
    (hlt : ∀ s ∈ W, s < h.fresh) (hun : ∀ s ∈ W, h.status s = .unchecked)
    (hold : ∀ s ∈ W, ∀ t ∈ W, h.oldName s = h.oldName t → s = t) :
    st.plan.error = [] ↔ Possible fileExists W h := by
  have hclass : ∀ s ∈ W, Classified fileExists W h st cuts s := fun s hs => o.classified hnd hlt hun hold hs
  constructor
  · intro hnil
    have hno : ∀ s ∈ W, st.heap.status s ∉ [.duplicate, .oldMissing, .newExists] := by
      intro s hs hstatus
      have := (hclass s hs).error.mpr hstatus
      rw [hnil] at this
      cases this
    have halone : ∀ s ∈ W, ¬ SharesNew W h s := fun s hs hshares =>
      hno s hs (by simp [(hclass s hs).duplicate.mpr hshares])
    have hexists : ∀ s ∈ W, fileExists (h.oldName s) = true := by
      intro s hs
      by_contra hmissing
      exact hno s hs (by simp [(hclass s hs).oldMissing.mpr ⟨halone s hs, by simpa using hmissing⟩])
    refine ⟨fun s hs t ht heq => ?_, hexists, fun s hs htaken => ?_⟩
    · by_contra hne
      exact halone s hs ⟨t, ht, Ne.symm hne, heq.symm⟩
    · by_cases hsame : h.oldName s = h.newName s
      · exact ⟨s, hs, hsame⟩
      · by_contra hnone
        have hR : Remaining fileExists W h s := ⟨hs, halone s hs, hexists s hs, hsame⟩
        have hend : EndsAt (Onto fileExists W h) s s :=
          ⟨.refl, fun u hu => hnone ⟨u, hu.2.1.mem, hu.2.2⟩⟩
        exact hno s hs (by simp [(hclass s hs).newExists.mpr ⟨hR, s, hend, htaken⟩])
  · intro p
    refine List.eq_nil_iff_forall_not_mem.mpr fun s hs => ?_
    obtain ⟨hW, hstatus⟩ := ((o.filed hnd hlt).error_iff s).mp hs
    have c := hclass s hW
    cases hcase : st.heap.status s <;> rw [hcase] at hstatus <;> cases hstatus
    · have hmissing := (c.oldMissing.mp hcase).2
      rw [p.old_exists s hW] at hmissing
      cases hmissing
    · exact p.not_sharesNew hW (c.duplicate.mp hcase)
    · obtain ⟨hR, t, hend, htaken⟩ := c.newExists.mp hcase
      rw [p.free_of_endsAt hR hend] at htaken
      cases htaken

end

section
variable {φ : Type} {fs₀ : FileSys φ} {W : List SpecId} {h : Heap} {st : PlanState} {cuts : List Cut}
  {loc : SpecId → CString} {w : ApplyState φ}

theorem Moving.allMoved (m : Moving W h st cuts fs₀ loc [] w) (herror : st.plan.error = [])
    (hsame : ∀ s ∈ st.plan.noChange, h.oldName s = h.newName s)
    (hold : ∀ s ∈ W, ∀ t ∈ W, h.oldName s = h.oldName t → s = t) : AllMoved W h fs₀ w.fs := by
  obtain ⟨ρ, hren, hmoved, hother⟩ := m.relocated.renames fun s t hs ht => hold s hs.mem t ht.mem
  refine ⟨ρ, hren, fun s hs => ?_, fun n hn => hother n fun s hs => hn s hs.mem⟩
  by_cases hno : s ∈ st.plan.noChange
  · rw [hother, hsame s hno]
    intro t ht heq
    obtain rfl := hold t ht.mem s hs heq
    exact ht.not_noChange hno
  · have hp : Planned W st.plan s := ⟨hs, by simp [herror], hno⟩
    rw [hmoved s hp, m.done s hp (by simp) (by simp)]

theorem makePlan_allMoved {fuel : Nat} (hst : makePlan fuel .qmv fs₀.contains W h = some st) (hnd : W.Nodup)
    (hlt : ∀ s ∈ W, s < h.fresh)
    (hfresh : ∀ s ∈ W, h.status s = .unchecked ∧ h.prevSpec s = none ∧ h.nextSpec s = none)
    (hold : ∀ s ∈ W, ∀ t ∈ W, h.oldName s = h.oldName t → s = t) (env : ApplyEnv) :
    let r := applyPlan .qmv false env st.plan ⟨st.heap, W, fs₀⟩
    (st.plan.error = [] ↔ Possible fs₀.contains W h) ∧
    (∀ l ∈ r.launched, l.fs.contains l.oldName = true ∧ l.fs.contains l.newName = false) ∧
    (st.plan.error = [] → r.returned = true → AllMoved W h fs₀ r.state.fs) ∧
    (env.cwdTo = true → env.cwdFrom = true → (∀ i, env.outcome i = .done) → r.returned = true) := by
  have hun : ∀ s ∈ W, h.status s = .unchecked := fun s hs => (hfresh s hs).1
  obtain ⟨ts, T, pending, cuts, errs, o⟩ := makePlan_qmv hnd hlt hst
  have hstart := Moving.start o hnd hlt hun (fun s hs => (hfresh s hs).2.1) (fun s hs => (hfresh s hs).2.2) hold
  have hlaunch : ∀ ok s w, (∃ loc, Moving W h st cuts fs₀ loc ok w) → s ∈ ok → (w.heap.status s).isOk = true →
      w.heap.prevSpec s = none → false = false →
      w.fs.contains (w.heap.oldName s) = true ∧ w.fs.contains (w.heap.newName s) = false := by
    rintro ok s w ⟨loc, m⟩ hs _ hp _
    obtain ⟨v, hv, hloc, _⟩ := m.owner o hnd hlt hs hp
    refine ⟨?_, by simp [Table.contains, m.safe.free s hs hp]⟩
    rw [← hloc]
    exact Option.isSome_iff_exists.mpr (m.relocated.at_some hv)
  obtain ⟨⟨loc, m⟩, hlaunched⟩ := applyPlan_rule (I := fun ok w => ∃ loc, Moving W h st cuts fs₀ loc ok w)
    (P := fun l => l.fs.contains l.oldName = true ∧ l.fs.contains l.newName = false)
    (Moving.step o hnd hlt) hlaunch env ⟨_, hstart⟩
  refine ⟨o.error_nil_iff hnd hlt hun hold, hlaunched, fun herror hreturned => ?_, fun hto hfrom hdone => ?_⟩
  · rw [hstart.sorted.ok_eq_nil hreturned] at m
    refine m.allMoved herror (fun s hs => ?_) hold
    obtain ⟨hW, hstatus⟩ := ((o.filed hnd hlt).noChange_iff s).mp hs
    exact ((o.classified hnd hlt hun hold hW).noChange.mp hstatus).2.2
  · rw [(makePlan_simulated (by decide) hst hnd hlt hfresh hold hdone env.outcome).returned, hto, hfrom]
    rfl

end

end Renameutils
