import Renameutils.ApplyWork
import Renameutils.Lib.Renames

/-!
# Where the files are at every moment

While a fresh plan is applied, in any number of runs and whichever commands fail, every file is somewhere, and
nowhere twice: `Placed` holds of the files that each command finds, so that a program that is stopped at any
moment has lost nothing (`makePlan_placed`).
-/

namespace Renameutils

/-- Where the file of a planned spec can be: the temporary name is that of the circular set that has to rename
it twice. -/
inductive Place (h : Heap) (cuts : List Cut) (s : SpecId) : CString → Prop
  | old : Place h cuts s (h.oldName s)
  | new : Place h cuts s (h.newName s)
  | tmp {c : Cut} (hc : c ∈ cuts) (hs : c.member = s) : Place h cuts s c.tmpName

/-- The files are those of `fs₀`, each under the name that `ρ` gives it; only those of planned specs have
other names. -/
structure Placed {φ : Type} (W : List SpecId) (h : Heap) (st : PlanState) (cuts : List Cut) (fs₀ : FileSys φ)
    (ρ : CString → CString) (fs : FileSys φ) : Prop where
  renames : Table.Renames ρ fs₀ fs
  planned : ∀ s, Planned W st.plan s → Place h cuts s (ρ (h.oldName s))
  other : ∀ n, (∀ s, Planned W st.plan s → h.oldName s ≠ n) → ρ n = n

section
variable {φ : Type} {fs₀ : FileSys φ} {W : List SpecId} {h : Heap} {st : PlanState} {cuts : List Cut}
  {ts : TopologicState} {T pending errs ok : List SpecId} {loc : SpecId → CString} {w : ApplyState φ}
  {s : SpecId}

namespace Moving

theorem place (m : Moving W h st cuts fs₀ loc ok w) (o : Ordered fs₀.contains W h ts T pending cuts errs st)
    (hnd : W.Nodup) (hlt : ∀ s ∈ W, s < h.fresh) (hs : Planned W st.plan s) : Place h cuts s (loc s) := by
  by_cases hm : ∃ c ∈ cuts, c.member = s
  · obtain ⟨c, hc, rfl⟩ := hm
    by_cases htmp : c.tmp ∈ ok
    · rw [(m.tmp c hc htmp).1]
      exact .old
    by_cases hcopy : c.copy ∈ ok
    · rw [m.copy c hc hcopy htmp]
      exact .tmp hc rfl
    rw [m.done c.member hs (fun hok => o.member_notMem_ok hnd hlt hc (m.subset _ hok)) fun d hd heq => ?_]
    · exact .new
    · obtain rfl := o.cut_unique hd hc (s := d.member) List.mem_cons_self (heq ▸ List.mem_cons_self)
      exact hcopy
  · by_cases hok : s ∈ ok
    · rw [m.regular s hok hs.mem]
      exact .old
    · rw [m.done s hs hok fun c hc heq => absurd ⟨c, hc, heq⟩ hm]
      exact .new

theorem placed (m : Moving W h st cuts fs₀ loc ok w) (o : Ordered fs₀.contains W h ts T pending cuts errs st)
    (hnd : W.Nodup) (hlt : ∀ s ∈ W, s < h.fresh)
    (hold : ∀ s ∈ W, ∀ t ∈ W, h.oldName s = h.oldName t → s = t) : ∃ ρ, Placed W h st cuts fs₀ ρ w.fs := by
  obtain ⟨ρ, hren, hmoved, hother⟩ := m.relocated.renames fun s t hs ht => hold s hs.mem t ht.mem
  refine ⟨ρ, hren, fun s hs => ?_, hother⟩
  rw [hmoved s hs]
  exact m.place o hnd hlt hs

end Moving

/-- What the completion of a spec keeps while a fresh plan is applied. -/
theorem Moving.step (o : Ordered fs₀.contains W h ts T pending cuts errs st) (hnd : W.Nodup)
    (hlt : ∀ s ∈ W, s < h.fresh) (kept : List SpecId) (s : SpecId) (rest : List SpecId) (w : ApplyState φ)
    (fs : FileSys φ) (hI : ∃ loc, Moving W h st cuts fs₀ loc (kept ++ s :: rest) w)
    (_hok : (w.heap.status s).isOk = true) (hp : w.heap.prevSpec s = none) (hc : Completes .qmv false w s fs) :
    ∃ loc, Moving W h st cuts fs₀ loc (kept ++ rest) (w.complete s fs) := by
  obtain ⟨loc, m⟩ := hI
  cases hc with
  | simulated hsim => cases hsim
  | performed _ file hfile => exact m.complete o hnd hlt hp hfile

theorem Ordered.applyRuns_placed (o : Ordered fs₀.contains W h ts T pending cuts errs st) (hnd : W.Nodup)
    (hlt : ∀ s ∈ W, s < h.fresh) (hold : ∀ s ∈ W, ∀ t ∈ W, h.oldName s = h.oldName t → s = t)
    (hstart : Moving W h st cuts fs₀ loc st.plan.ok ⟨st.heap, W, fs₀⟩) (envs : List ApplyEnv) :
    let r := applyRuns .qmv false envs st.plan ⟨st.heap, W, fs₀⟩
    (∀ l ∈ r.launched, ∃ ρ, Placed W h st cuts fs₀ ρ l.fs) ∧ ∃ ρ, Placed W h st cuts fs₀ ρ r.state.fs := by
  have hlaunch : ∀ ok s w, (∃ loc, Moving W h st cuts fs₀ loc ok w) → s ∈ ok → (w.heap.status s).isOk = true →
      w.heap.prevSpec s = none → false = false → ∃ ρ, Placed W h st cuts fs₀ ρ w.fs := by
    rintro ok s w ⟨loc, m⟩ _ _ _ _
    exact m.placed o hnd hlt hold
  obtain ⟨⟨loc, m⟩, hlaunched⟩ := applyRuns_rule (I := fun ok w => ∃ loc, Moving W h st cuts fs₀ loc ok w)
    (P := fun l => ∃ ρ, Placed W h st cuts fs₀ ρ l.fs) (Moving.step o hnd hlt) hlaunch envs ⟨_, hstart⟩
  exact ⟨hlaunched, m.placed o hnd hlt hold⟩

/-- At every moment of any runs over a fresh qmv plan the files are those from before, none of them lost and
none overwritten: each one is at its old name, at its new name or at a temporary name. -/
theorem makePlan_placed {fuel : Nat} (hst : makePlan fuel .qmv fs₀.contains W h = some st) (hnd : W.Nodup)
    (hlt : ∀ s ∈ W, s < h.fresh)
    (hfresh : ∀ s ∈ W, h.status s = .unchecked ∧ h.prevSpec s = none ∧ h.nextSpec s = none)
    (hold : ∀ s ∈ W, ∀ t ∈ W, h.oldName s = h.oldName t → s = t) :
    ∃ cuts, ExactlyOnce W h st cuts ∧ ∀ envs : List ApplyEnv,
      let r := applyRuns .qmv false envs st.plan ⟨st.heap, W, fs₀⟩
      (∀ l ∈ r.launched, ∃ ρ, Placed W h st cuts fs₀ ρ l.fs) ∧ ∃ ρ, Placed W h st cuts fs₀ ρ r.state.fs := by
  obtain ⟨ts, T, pending, cuts, errs, o⟩ := makePlan_qmv hnd hlt hst
  have hstart := Moving.start o hnd hlt (fun s hs => (hfresh s hs).1) (fun s hs => (hfresh s hs).2.1)
    (fun s hs => (hfresh s hs).2.2) hold
  exact ⟨cuts, o.exactlyOnce hnd hlt, o.applyRuns_placed hnd hlt hold hstart⟩

end

/-- Two files that exchange their names; the second of the three commands fails. -/
theorem makePlan_placed_swap :
    let fs : FileSys Nat := (Table.empty.put [97] 1).put [98] 2
    let h := (Heap.empty.newFileSpec ⟨[97], [98], none, none, .unchecked⟩).newFileSpec
      ⟨[98], [97], none, none, .unchecked⟩
    ∃ st cuts, makePlan 10 .qmv fs.contains [0, 1] h = some st ∧
      ∃ ρ, Placed [0, 1] h st cuts fs ρ (applyRuns .qmv false
        [⟨true, true, fun i => if i = 1 then .failed else .done⟩] st.plan ⟨st.heap, [0, 1], fs⟩).state.fs := by
  intro fs h
  have hm : (makePlan 10 .qmv fs.contains [0, 1] h).isSome = true := by decide
  obtain ⟨st, hst⟩ := Option.isSome_iff_exists.mp hm
  obtain ⟨cuts, _, hplaced⟩ := makePlan_placed hst (by decide) (by decide) (by decide) (by decide)
  exact ⟨st, cuts, hst, (hplaced _).2⟩

end Renameutils
