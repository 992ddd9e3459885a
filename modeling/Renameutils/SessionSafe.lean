import Renameutils.SessionPlans

/-!
# No command moves onto a file

The plan of a session stays `Safe` from the edit that makes it to the next: the commands of `apply` keep
that, and a rejected edit does if it gives the specs of `plan->ok` no other names. When it is made it is
safe if the specs that it carries over still are.
-/

namespace Renameutils

variable {φ : Type}

/-- A rejected edit gives the specs of `plan->ok` only the new names that they have. -/
def KeepsPlanned (setup : Setup) (s : Session φ) (e : Event) : Prop :=
  ∀ all env d s₁ plan, e = .edit all env → s.editFiles setup all false env = some d → d.result = false →
    d.read = some s₁ → s.plan = some plan → ∀ t ∈ plan.ok, ∀ n,
      (s₁.format.readNames s₁.options s₁.realWidth s₁.editFileList env.file s₁.heap.oldName).1.reverse.lookup t =
        some n → n = some (s₁.heap.newName t)

/-- The steps that choose, edit and apply renames, where the specs that a plan carries over are as they
were when they were planned, and keep their names when an edit is rejected. -/
def Applying (setup : Setup) (s : Session φ) (e : Event) : Prop :=
  Planning setup (fun s => CarriedNames s.workFiles s.heap ∧ CarriedFree s.fs s.workFiles s.heap) s e ∧
    KeepsPlanned setup s e

/-- The plan can be applied without moving onto a file. -/
def SafePlan (s : Session φ) : Prop := ∀ plan, s.plan = some plan → Safe s.fs s.heap plan.ok

theorem Safe.congr {fs : FileSys φ} {h h' : Heap} {ok : List SpecId} (safe : Safe fs h ok)
    (hnew : ∀ t ∈ ok, h'.newName t = h.newName t) (hold : h'.oldName = h.oldName)
    (hprev : h'.prevSpec = h.prevSpec) (hnext : h'.nextSpec = h.nextSpec) : Safe fs h' ok where
  nodup := safe.nodup
  new_inj s hs t ht heq := by
    rw [hnew s hs, hnew t ht] at heq
    exact safe.new_inj s hs t ht heq
  free s hs hp := by
    rw [hnew s hs]
    exact safe.free s hs (hprev ▸ hp)
  next f hf s hs hn := by
    rw [hprev, hold, hnew s hs]
    exact safe.next f hf s hs (hnext ▸ hn)

theorem setNewNames_newName {s : Session φ} {names : List (SpecId × Option CString)} {t : SpecId}
    (h : ∀ n, names.reverse.lookup t = some n → n = some (s.heap.newName t)) :
    (s.setNewNames (s.editSpecs.assign names)).heap.newName t = s.heap.newName t := by
  show ((s.editSpecs.assign names).newName t).getD [] = _
  rw [EditSpecs.assign_newName]
  cases hl : names.reverse.lookup t with
  | none => rfl
  | some n => rw [h n hl]; rfl

section
variable {setup : Setup} {s : Session φ} {e : Event} {r : StepResult φ}

theorem SafePlan.reject {all : Bool} {env : EditEnv} {d : EditResult φ} (safe : SafePlan s)
    (keeps : KeepsPlanned setup s (.edit all env)) (hd : s.editFiles setup all false env = some d)
    (hres : d.result = false) : SafePlan d.session := by
  intro plan hplan
  have f := editFiles_frame hd
  rw [f.plan] at hplan
  rw [f.fs]
  refine (safe plan hplan).congr (fun t ht => ?_) f.oldName f.prevSpec f.nextSpec
  rcases editFiles_run hd with ⟨hp, _⟩ | ⟨s₁, hp, he⟩
  · rw [hp.frame.2]
  · have hkeep := keeps all env d
    cases he with
    | unread => rw [hp.frame.2]
    | rejected names hn =>
      have hkeep := hkeep s₁ plan rfl hd rfl rfl hplan t ht
      rw [hn] at hkeep
      rw [setNewNames_newName hkeep, hp.frame.2]
    | accepted => cases hres

theorem SafePlan.edit {all : Bool} {env : EditEnv} (hqmv : setup.program = .qmv)
    (l : ListedOnce s.workFiles s.heap) (safe : SafePlan s) (ok : Applying setup s (.edit all env))
    (h : s.step setup (.edit all env) = some r) : SafePlan r.session := by
  obtain ⟨_, rfl | ⟨d, hd, _, ⟨hres, hs, _⟩ | ⟨hres, st, hst, _, hs⟩⟩⟩ := editCommand_run h
  · exact safe
  · exact hs ▸ safe.reject ok.2 hd hres
  · have l' := l.edit hd
    obtain ⟨names, free⟩ := (ok.1.2 all env rfl).2 d hd hres
    rw [hqmv] at hst
    obtain ⟨ts, T, pending, cuts, errs, o⟩ := makePlan_qmv l'.nodup l'.lt hst
    rw [hs]
    rintro _ ⟨⟩
    exact o.safe (distinct_scanned l'.nodup l'.old_inj) l'.nodup l'.lt names free

theorem simulate_step (hre : e.isRenaming = true) (h : s.step setup e = some r) :
    r.session.simulate = s.simulate := by
  cases e with
  | list ls => cases h; cases ls <;> rfl
  | edit all env =>
    obtain ⟨_, rfl | ⟨d, hd, _, ⟨_, hs, _⟩ | ⟨_, st, _, _, hs⟩⟩⟩ := editCommand_run h
    · rfl
    · rw [hs]; exact (editFiles_frame hd).simulate
    · rw [hs]; exact (editFiles_frame hd).simulate
  | plan => cases h; rfl
  | apply env =>
    cases h
    unfold Session.applyCommand
    split <;> rfl
  | _ => cases hre

theorem SafePlan.step (hqmv : setup.program = .qmv) (hsim : s.simulate = false)
    (l : ListedOnce s.workFiles s.heap) (safe : SafePlan s) (ok : Applying setup s e)
    (h : s.step setup e = some r) : SafePlan r.session := by
  cases e with
  | list ls =>
    cases h
    cases ls with
    | none => exact safe
    | some entries => exact nofun
  | edit all env => exact safe.edit hqmv l ok h
  | plan => cases h; exact safe
  | apply env =>
    cases h
    unfold Session.applyCommand
    cases hplan : s.plan with
    | none => exact safe
    | some plan =>
      rintro _ ⟨⟩
      simp only [hqmv, hsim]
      exact (Safe.applyPlan (w := ⟨s.heap, s.workFiles, s.fs⟩) (safe plan hplan)).1
  | _ => exact absurd ok.1.1 (by simp [Event.isRenaming])

theorem safePlan_runs (hqmv : setup.program = .qmv) {fs : FileSys φ} {format : EditFormat}
    {options : FormatOptions} {es : List Event}
    (h : Runs (Session.next setup) (Applying setup) (.initial fs false format options) es s) :
    SafePlan s := by
  refine (runs_invariant (I := fun s => ListedOnce s.workFiles s.heap ∧ SafePlan s ∧ s.simulate = false) h
    (fun s e r ⟨l, safe, hsim⟩ ok hr => ?_) ⟨listedOnce_initial fs false format options, nofun, rfl⟩).2.1
  exact ⟨l.step hr, safe.step hqmv hsim l ok hr, (simulate_step ok.1.1 hr).trans hsim⟩

theorem launched_simulate {w : ApplyState φ} {program : Program} {env : ApplyEnv} {plan : ApplyPlan} :
    (applyPlan program true env plan w).launched = [] := by
  have h : True ∧ ∀ l ∈ (applyPlan program true env plan w).launched, False :=
    applyPlan_rule (I := fun _ _ => True) (fun _ _ _ _ _ _ _ _ _ => trivial)
      (fun _ _ _ _ _ _ _ hsim => by cases hsim) env trivial
  exact List.eq_nil_iff_forall_not_mem.mpr h.2

theorem simulate_runs {fs : FileSys φ} {simulate : Bool} {format : EditFormat} {options : FormatOptions}
    {es : List Event}
    (h : Runs (Session.next setup) (Applying setup) (.initial fs simulate format options) es s) :
    s.simulate = simulate := by
  exact runs_invariant (I := fun s => s.simulate = simulate) h
    (fun _ _ _ hsim ok hr => (simulate_step ok.1.1 hr).trans hsim) rfl

/-- In any session of qmv in which the carried specs are as they were planned, no command is started whose
destination exists. -/
theorem launched_dest_free (hqmv : setup.program = .qmv) {fs : FileSys φ} {simulate : Bool}
    {format : EditFormat} {options : FormatOptions} {es : List Event}
    (h : Runs (Session.next setup) (Applying setup) (.initial fs simulate format options) es s)
    (hstep : s.step setup e = some r) : ∀ l ∈ r.launched, l.fs.contains l.newName = false := by
  cases e with
  | apply env =>
    cases hstep
    unfold Session.applyCommand
    cases hplan : s.plan with
    | none => simp
    | some plan =>
      cases simulate with
      | true =>
        dsimp only
        rw [simulate_runs h, launched_simulate]
        simp
      | false =>
        have safe := safePlan_runs hqmv h plan hplan
        have hl : ∀ l ∈ (applyPlan .qmv false env plan ⟨s.heap, s.workFiles, s.fs⟩).launched,
            l.fs l.newName = none := (Safe.applyPlan safe).2
        simp only [hqmv, simulate_runs h]
        intro l hm
        rw [Table.contains, hl l hm]
        rfl
  | edit all env =>
    rw [(editCommand_run hstep).1]
    simp
  | _ => cases hstep; simp

end

/-- `c` is edited again, and the plan carries over that `b` makes way for `a`. -/
theorem launched_dest_free_carried :
    let setup := asciiSetup .qmv
    ∃ s₁ s₂ r, (listed fourFiles [[98], [97], [99]]).next setup (editLines true [[101], [98], [100]]) = some s₁ ∧
      s₁.next setup (editLines false [[121]]) = some s₂ ∧
      s₂.step setup (.apply { outcome := fun _ => .done }) = some r ∧ r.launched.length = 3 ∧
      ∀ l ∈ r.launched, l.fs.contains l.newName = false := by
  intro setup
  obtain ⟨s, d, made, st, r, p⟩ := replanned
  have hs : s.next setup (editLines false [[121]]) = some made.session := by rw [Session.next, p.step]; rfl
  have hfirst : Applying setup (listed fourFiles [[98], [97], [99]]) (editLines true [[101], [98], [100]]) := by
    refine ⟨planning_listed (fun _ hun _ hnext => ⟨carriedNames_fresh hun, carriedFree_fresh hun _ hnext⟩)
      (by decide), ?_⟩
    intro _ _ _ _ plan _ _ _ _ hplan
    rw [listed_plan] at hplan
    cases hplan
  have hagain : Applying setup s (editLines false [[121]]) := by
    refine ⟨p.planning ⟨p.carriedNames, p.carriedFree⟩, ?_⟩
    rintro _ _ d' _ _ ⟨⟩ hd' hres
    rw [p.edit] at hd'
    cases hd'
    rw [p.result] at hres
    cases hres
  have hruns : Runs (Session.next setup) (Applying setup) (listed fourFiles [[98], [97], [99]])
      [editLines true [[101], [98], [100]], editLines false [[121]]] made.session :=
    .cons hfirst p.next (.cons hagain hs (.nil _))
  refine ⟨s, made.session, r, p.next, hs, p.apply, p.launched, ?_⟩
  exact launched_dest_free rfl (runs_listed ⟨planning_list _ _, fun _ _ _ _ _ he => Event.noConfusion he⟩ hruns)
    p.apply

/-- The third file is first to be renamed to a name that exists, and then to the new name of the first.
Both renames are applied, the second onto the first file. -/
theorem launched_onto_file :
    let setup := asciiSetup .qmv
    let fs : FileSys Nat := ((Table.empty.put [97] 1).put [98] 2).put [99] 3
    ¬ ∀ es s e r, Runs (Session.next setup) (fun _ e => e.isRenaming = true)
      (.initial fs false .destinationOnly {}) es s → e.isRenaming = true → s.step setup e = some r →
      ∀ l ∈ r.launched, l.fs.contains l.newName = false := by
  intro setup fs claim
  obtain ⟨s, r, hrun, hr, hp⟩ := exists_run setup (.initial fs false .destinationOnly {})
    [.list (some [([], [97]), ([], [99])]), editLines true [[120], [98]], editLines false [[120]]]
    (.apply { outcome := fun _ => .done }) (fun _ e => e.isRenaming = true)
    (fun r => r.launched.any fun l => l.fs.contains l.newName)
    (by simp [Event.isRenaming, editLines]) (by decide +kernel)
  obtain ⟨l, hl, hc⟩ := List.any_eq_true.mp hp
  rw [claim _ s _ r hrun rfl hr l hl] at hc
  cases hc

end Renameutils
