import Renameutils.SessionInv

/-!
# The plans of a session

`edit` makes a new plan of all listed specs, of which only the edited ones were made unchecked again. The
others carry their status, links and new name over from the plans before. When the carried new names are
not used again the destinations of the plan are distinct (`plan_newNames_nodup`), and when the carried
specs wait for carried specs that are listed before them the plan is sorted (`plan_sorted`). Neither is
checked by `make_plan`.
-/

namespace Renameutils
open Chain

variable {φ : Type}

/-- The specs of the edit that is taken up again are still listed. Otherwise the code would write to
specs that were freed. -/
def Session.ReeditListed (s : Session φ) : Prop :=
  s.acceptReedit = true → ∀ t ∈ s.editFileList, t ∈ s.workFiles

/-- The steps that choose, edit and apply renames, where an edit is taken up again only for listed specs and
`P` holds of the session whenever `make_plan` is called. -/
def Planning (setup : Setup) (P : Session φ → Prop) (s : Session φ) (e : Event) : Prop :=
  e.isRenaming = true ∧ ∀ all env, e = .edit all env → s.ReeditListed ∧
    ∀ d, s.editFiles setup all false env = some d → d.result = true → P d.session

theorem Planning.made {setup : Setup} {P : Session φ → Prop} {s : Session φ} {e : Event} {r : StepResult φ}
    {st : PlanState} (ok : Planning setup P s e) (h : s.step setup e = some r) (hmade : r.made = some st) :
    ∃ all env d, s.editFiles setup all false env = some d ∧ P d.session ∧
      makePlan env.fuel setup.program d.session.fs.contains d.session.workFiles d.session.heap = some st := by
  cases e with
  | edit all env =>
    obtain ⟨_, rfl | ⟨d, hd, _, ⟨_, _, hnone⟩ | ⟨hres, st', hst, hm, _⟩⟩⟩ := editCommand_run h
    · cases hmade
    · rw [hnone] at hmade; cases hmade
    · rw [hm] at hmade
      cases hmade
      exact ⟨all, env, d, hd, (ok.2 all env rfl).2 d hd hres, hst⟩
  | apply env =>
    cases h
    unfold Session.applyCommand at hmade
    split at hmade <;> cases hmade
  | _ => cases h; cases hmade

theorem planning_list {setup : Setup} {P : Session Nat → Prop} (fs : FileSys Nat) (names : List CString) :
    Planning setup P (.initial fs false .destinationOnly {}) (.list (some (names.map ([], ·)))) :=
  ⟨rfl, fun _ _ he => Event.noConfusion he⟩

theorem Planning.edit {setup : Setup} {P : Session φ → Prop} {s : Session φ} {all : Bool} {env : EditEnv}
    (hre : s.acceptReedit = false)
    (hP : ∀ d, s.editFiles setup all false env = some d → d.result = true → P d.session) :
    Planning setup P s (.edit all env) := by
  refine ⟨rfl, ?_⟩
  rintro _ _ ⟨⟩
  exact ⟨fun h => absurd (hre.symm.trans h) Bool.false_ne_true, hP⟩

theorem planning_listed {setup : Setup} {P : Session Nat → Prop} {fs : FileSys Nat} {names : List CString}
    {env : EditEnv} (hP : ∀ s : Session Nat, (∀ t ∈ s.workFiles, s.heap.status t = .unchecked) →
      (∀ t ∈ s.workFiles, s.heap.prevSpec t = none) → (∀ t ∈ s.workFiles, s.heap.nextSpec t = none) → P s)
    (hfresh : ((listed fs names).editFiles setup true false env).all
      (fun d => d.session.workFiles.all (isFresh d.session.heap)) = true) :
    Planning setup P (listed fs names) (.edit true env) := by
  refine .edit rfl fun d hd _ => ?_
  have h := editFiles_listed_fresh hfresh hd
  exact hP d.session (fun t ht => (h t ht).1) (fun t ht => (h t ht).2.1) (fun t ht => (h t ht).2.2)

/-! ### A session with a second plan -/

/-- The files `a`, `b`, `c` and `d`. -/
def fourFiles : FileSys Nat := (((Table.empty.put [97] 1).put [98] 2).put [99] 3).put [100] 4

/-- `b` moves on to `e`, `a` to `b`, and `c` cannot move to `d`, which exists. Then `c` is edited again and
everything is applied. -/
structure Replanned (s : Session Nat) (d : EditResult Nat) (r : StepResult Nat) (st : PlanState)
    (applied : StepResult Nat) : Prop where
  next : (listed fourFiles [[98], [97], [99]]).next (asciiSetup .qmv) (editLines true [[101], [98], [100]]) = some s
  acceptReedit : s.acceptReedit = false
  edit : s.editFiles (asciiSetup .qmv) false false (editEnv [[121]]) = some d
  result : d.result = true
  workFiles : d.session.workFiles = [0, 1, 2]
  specs : [0, 1, 2].map d.session.heap.spec = [⟨[98], [101], none, some 1, .apply⟩,
    ⟨[97], [98], some 0, none, .apply⟩, ⟨[99], [121], none, none, .unchecked⟩]
  free : d.session.fs [101] = none
  step : s.step (asciiSetup .qmv) (editLines false [[121]]) = some r
  made : r.made = some st
  ok : st.plan.ok = [0, 1, 2]
  apply : r.session.step (asciiSetup .qmv) (.apply { outcome := fun _ => .done }) = some applied
  launched : applied.launched.length = 3

theorem replanned : ∃ s d r st applied, Replanned s d r st applied := by
  have h : ((listed fourFiles [[98], [97], [99]]).next (asciiSetup .qmv) (editLines true [[101], [98], [100]])).any
      (fun s => s.acceptReedit = false ∧
        ((s.editFiles (asciiSetup .qmv) false false (editEnv [[121]])).any fun d => d.result = true ∧
          d.session.workFiles = [0, 1, 2] ∧
          [0, 1, 2].map d.session.heap.spec = [⟨[98], [101], none, some 1, .apply⟩,
            ⟨[97], [98], some 0, none, .apply⟩, ⟨[99], [121], none, none, .unchecked⟩] ∧
          d.session.fs [101] = none) ∧
        (s.step (asciiSetup .qmv) (editLines false [[121]])).any fun r =>
          (r.made.any fun (st : PlanState) => st.plan.ok = [0, 1, 2]) ∧
          (r.session.step (asciiSetup .qmv) (.apply { outcome := fun _ => .done })).any
            (·.launched.length = 3)) = true := by
    decide +kernel
  obtain ⟨s, hs, h⟩ := (Option.any_eq_true _ _).mp h
  obtain ⟨hre, hedit, hstep⟩ := decide_eq_true_eq.mp h
  obtain ⟨d, hd, h⟩ := (Option.any_eq_true _ _).mp hedit
  obtain ⟨hres, hW, hspecs, hfree⟩ := decide_eq_true_eq.mp h
  obtain ⟨r, hr, h⟩ := (Option.any_eq_true _ _).mp hstep
  obtain ⟨hmade, happly⟩ := decide_eq_true_eq.mp h
  obtain ⟨st, hst, hok⟩ := (Option.any_eq_true _ _).mp hmade
  obtain ⟨applied, ha, hlen⟩ := (Option.any_eq_true _ _).mp happly
  exact ⟨s, d, r, st, applied, hs, hre, hd, hres, hW, hspecs, hfree, hr, hst, decide_eq_true_eq.mp hok, ha,
    decide_eq_true_eq.mp hlen⟩

namespace Replanned
variable {s : Session Nat} {d : EditResult Nat} {r applied : StepResult Nat} {st : PlanState}

theorem planning {P : Session Nat → Prop} (p : Replanned s d r st applied) (hP : P d.session) :
    Planning (asciiSetup .qmv) P s (editLines false [[121]]) := by
  refine .edit p.acceptReedit fun d' hd' _ => ?_
  rw [p.edit] at hd'
  cases hd'
  exact hP

theorem fields (p : Replanned s d r st applied) :
    d.session.heap.spec 0 = ⟨[98], [101], none, some 1, .apply⟩ ∧
      d.session.heap.spec 1 = ⟨[97], [98], some 0, none, .apply⟩ ∧
      d.session.heap.spec 2 = ⟨[99], [121], none, none, .unchecked⟩ := by
  simpa using p.specs

theorem carriedNames (p : Replanned s d r st applied) : CarriedNames d.session.workFiles d.session.heap := by
  obtain ⟨h0, h1, h2⟩ := p.fields
  simp only [Heap.spec, FileSpec.mk.injEq] at h0 h1 h2
  rw [p.workFiles]
  constructor <;> simp [h0, h1, h2, FileSpecStatus.isOk]

theorem carriedFree (p : Replanned s d r st applied) :
    CarriedFree d.session.fs d.session.workFiles d.session.heap := by
  obtain ⟨h0, h1, h2⟩ := p.fields
  simp only [Heap.spec, FileSpec.mk.injEq] at h0 h1 h2
  rw [p.workFiles]
  constructor <;> simp [h0, h1, h2, FileSpecStatus.isOk, p.free]

theorem carriedOrder (p : Replanned s d r st applied) : CarriedOrder d.session.workFiles d.session.heap := by
  obtain ⟨h0, h1, h2⟩ := p.fields
  simp only [Heap.spec, FileSpec.mk.injEq] at h0 h1 h2
  have hbefore : Before [0, 1, 2] 0 1 := ⟨[0], [2], rfl, by simp⟩
  rw [p.workFiles]
  constructor <;> simp [h0, h1, h2, FileSpecStatus.isOk, hbefore]

end Replanned

variable {setup : Setup} {fs : FileSys φ} {simulate : Bool} {format : EditFormat} {options : FormatOptions}
  {es : List Event} {s : Session φ} {e : Event} {r : StepResult φ} {st : PlanState}

/-- No two renames of a plan have the same destination, in any session in which the carried new names are
not used again. -/
theorem plan_newNames_nodup
    (h : Runs (Session.next setup) (Planning setup fun s => CarriedNames s.workFiles s.heap)
      (.initial fs simulate format options) es s)
    (ok : Planning setup (fun s => CarriedNames s.workFiles s.heap) s e) (hstep : s.step setup e = some r)
    (hmade : r.made = some st) : (st.plan.ok.map st.heap.newName).Nodup := by
  obtain ⟨all, env, d, hd, names, hm⟩ := ok.made hstep hmade
  have l := (listedOnce_runs h).edit hd
  exact makePlan_new_inj l.nodup l.lt l.old_inj names hm

/-- `c` is edited again, and the plan carries over that `b` makes way for `a`. -/
theorem plan_newNames_nodup_carried :
    let setup := asciiSetup .qmv
    ∃ s r st, (listed fourFiles [[98], [97], [99]]).next setup (editLines true [[101], [98], [100]]) = some s ∧
      s.step setup (editLines false [[121]]) = some r ∧ r.made = some st ∧ st.plan.ok = [0, 1, 2] ∧
      (st.plan.ok.map st.heap.newName).Nodup := by
  obtain ⟨s, d, r, st, _, p⟩ := replanned
  have hfirst : Planning (asciiSetup .qmv) (fun s => CarriedNames s.workFiles s.heap)
      (listed fourFiles [[98], [97], [99]]) (editLines true [[101], [98], [100]]) :=
    planning_listed (fun _ hun _ _ => carriedNames_fresh hun) (by decide)
  have hagain : Planning (asciiSetup .qmv) (fun s => CarriedNames s.workFiles s.heap) s (editLines false [[121]]) :=
    p.planning p.carriedNames
  exact ⟨s, r, st, p.next, p.step, p.made, p.ok,
    plan_newNames_nodup (runs_listed (planning_list _ _) (.cons hfirst p.next (.nil s))) hagain p.step p.made⟩

/-- The third file is first to be renamed to a name that exists, and then to the new name of the first,
which keeps its rename. -/
theorem plan_newNames_twice :
    let setup := asciiSetup .qmv
    let fs : FileSys Nat := ((Table.empty.put [97] 1).put [98] 2).put [99] 3
    ¬ ∀ es s e r st, Runs (Session.next setup) (fun _ e => e.isRenaming = true)
      (.initial fs false .destinationOnly {}) es s → e.isRenaming = true → s.step setup e = some r →
      r.made = some st → (st.plan.ok.map st.heap.newName).Nodup := by
  intro setup fs claim
  obtain ⟨s, r, hrun, hr, hp⟩ := exists_run setup (.initial fs false .destinationOnly {})
    [.list (some [([], [97]), ([], [99])]), editLines true [[120], [98]]] (editLines false [[120]])
    (fun _ e => e.isRenaming = true)
    (fun r => r.made.any fun (st : PlanState) => !decide (st.plan.ok.map st.heap.newName).Nodup)
    (by simp [Event.isRenaming, editLines])
    (by decide +kernel)
  obtain ⟨st, hst, hno⟩ := (Option.any_eq_true _ _).mp hp
  simp only [Bool.not_eq_true', decide_eq_false_iff_not] at hno
  exact hno (claim _ s _ r st hrun rfl hr hst)

/-- In any session of qmv in which the carried specs wait for carried specs that are listed before them,
every spec of a plan waits for one before it, so that an application in which every command succeeds
leaves none. -/
theorem plan_sorted (hqmv : setup.program = .qmv)
    (h : Runs (Session.next setup) (Planning setup fun s => CarriedOrder s.workFiles s.heap)
      (.initial fs simulate format options) es s)
    (ok : Planning setup (fun s => CarriedOrder s.workFiles s.heap) s e) (hstep : s.step setup e = some r)
    (hmade : r.made = some st) :
    (∀ t ∈ st.plan.ok, ∀ p, st.heap.prevSpec t = some p → Before st.plan.ok p t) ∧
      ∀ (sim : Bool) (env : ApplyEnv) (w : ApplyState φ), w.heap = st.heap → env.cwdTo = true →
        (applyLoop .qmv sim st.plan.ok env.outcome w).fail = false →
        (applyPlan .qmv sim env st.plan w).plan.ok = [] := by
  obtain ⟨all, env, d, hd, order, hm⟩ := ok.made hstep hmade
  have l := (listedOnce_runs h).edit hd
  rw [hqmv] at hm
  obtain ⟨ts, T, pending, cuts, errs, o⟩ := makePlan_qmv l.nodup l.lt hm
  have sorted := o.sorted (distinct_scanned l.nodup l.old_inj) l.nodup l.lt order
  refine ⟨fun t ht p hp => (sorted.prev t ht p hp).1, fun sim env w hw hto hfail => ?_⟩
  have sorted' : Sorted w.heap st.plan.ok := hw ▸ sorted
  rw [applyPlan]
  split
  · assumption
  · rw [hto]
    exact sorted'.kept_eq_nil hfail

/-- `c` is edited again, and `a`, which waits for `b`, is carried over behind it. -/
theorem plan_sorted_carried :
    let setup := asciiSetup .qmv
    ∃ s r st, (listed fourFiles [[98], [97], [99]]).next setup (editLines true [[101], [98], [100]]) = some s ∧
      s.step setup (editLines false [[121]]) = some r ∧ r.made = some st ∧ st.plan.ok = [0, 1, 2] ∧
      ∀ t ∈ st.plan.ok, ∀ p, st.heap.prevSpec t = some p → Before st.plan.ok p t := by
  obtain ⟨s, d, r, st, _, p⟩ := replanned
  have hfirst : Planning (asciiSetup .qmv) (fun s => CarriedOrder s.workFiles s.heap)
      (listed fourFiles [[98], [97], [99]]) (editLines true [[101], [98], [100]]) :=
    planning_listed (fun _ hun hprev _ => carriedOrder_fresh hun hprev) (by decide)
  have hagain : Planning (asciiSetup .qmv) (fun s => CarriedOrder s.workFiles s.heap) s (editLines false [[121]]) :=
    p.planning p.carriedOrder
  exact ⟨s, r, st, p.next, p.step, p.made, p.ok,
    (plan_sorted rfl (runs_listed (planning_list _ _) (.cons hfirst p.next (.nil s))) hagain p.step p.made).1⟩

/-- The first file is renamed to the name of the second, which is itself renamed. The edit of the third
makes a new plan, in which the first two stand as they are listed. -/
theorem plan_unsorted :
    let setup := asciiSetup .qmv
    let fs : FileSys Nat := (((Table.empty.put [97] 1).put [98] 2).put [99] 3).put [101] 4
    ¬ ∀ es s e r st, Runs (Session.next setup) (fun _ e => e.isRenaming = true ∧ e ≠ .plan)
      (.initial fs false .destinationOnly {}) es s → (e.isRenaming = true ∧ e ≠ .plan) →
      s.step setup e = some r → r.made = some st →
      ∀ t ∈ st.plan.ok, ∀ p, st.heap.prevSpec t = some p → Before st.plan.ok p t := by
  intro setup fs claim
  obtain ⟨s, r, hrun, hr, hp⟩ := exists_run setup (.initial fs false .destinationOnly {})
    [.list (some [([], [97]), ([], [98]), ([], [99])]), editLines true [[98], [120], [101]]]
    (editLines false [[121]]) (fun _ e => e.isRenaming = true ∧ e ≠ .plan)
    (fun r => r.made.any fun (st : PlanState) => st.plan.ok = [0, 1, 2] ∧ st.heap.prevSpec 0 = some 1)
    (by simp [Event.isRenaming, editLines]) (by decide +kernel)
  obtain ⟨st, hst, hp⟩ := (Option.any_eq_true _ _).mp hp
  obtain ⟨hok, hprev⟩ := decide_eq_true_eq.mp hp
  have hbefore := claim _ s _ r st hrun ⟨rfl, by simp [editLines]⟩ hr hst 0 (by simp [hok]) 1 hprev
  rw [hok] at hbefore
  exact hbefore.not_head (by decide)

end Renameutils
