import Renameutils.WorkDirectory
import Renameutils.ApplyInv

/-!
# Runs on the disk

The names that a plan uses stand for places below the work directory. When different ones stand for different places
a run of `apply_plan` on the disk follows a run on the flat table of what the names have (`Follows`): the same specs
are completed, and the same commands are launched, but that a command fails whose destination has no directory.
-/

namespace Renameutils

section
variable {δ φ : Type} {D : Tree δ} {d : δ} {name : CString}

/-- The files that some names, those with `N`, have in the directory `d`. -/
noncomputable def Tree.view (D : Tree δ) (N : CString → Prop) (d : δ) (disk : Disk δ φ) : FileSys φ :=
  fun n => open Classical in if N n then D.find disk d n else none

theorem view_of (disk : Disk δ φ) {N : CString → Prop} (hn : N name) :
    D.view N d disk name = (D.locate d name).bind disk := if_pos hn

theorem view_of_not (disk : Disk δ φ) {N : CString → Prop} (hn : ¬ N name) : D.view N d disk name = none :=
  if_neg hn

end

/-! ### Commands on the disk and on names -/

section
variable {δ φ : Type} [DecidableEq δ] {D : Tree δ} {d : δ} {N : CString → Prop} {program : Program}
  {disk disk₀ : Disk δ φ} {oldName newName : CString}

/-- A command, as it is for names: one whose destination has no directory fails. -/
def Tree.resultFor (D : Tree δ) (d : δ) (newName : CString) (result : CommandResult) : CommandResult :=
  if result = .done ∧ D.locate d newName = none then .failed else result

omit [DecidableEq δ] in
theorem resultFor_notStarted (D : Tree δ) (d : δ) (newName : CString) (result : CommandResult) :
    D.resultFor d newName result = .notStarted ↔ result = .notStarted := by
  unfold Tree.resultFor
  split
  · rename_i h
    simp [h.1]
  · rfl

/-- The names that are used stand for different places. -/
def LocateInj (D : Tree δ) (N : CString → Prop) (d : δ) : Prop :=
  ∀ m n p, N m → N n → D.locate d m = some p → D.locate d n = some p → m = n

theorem view_put {source dest : δ × CString} (hinj : LocateInj D N d) (hold : N oldName) (hnew : N newName)
    (hsource : D.locate d oldName = some source) (hdest : D.locate d newName = some dest) (file : φ) :
    D.view N d (((if program = .qmv then disk.remove source else disk)).put dest file) =
      ((if program = .qmv then (D.view N d disk).remove oldName else D.view N d disk)).put newName file := by
  funext n
  rw [Table.put_apply]
  by_cases hn : N n
  · rw [view_of _ hn]
    cases hp : D.locate d n with
    | none =>
      have hne : n ≠ newName := by rintro rfl; rw [hdest] at hp; cases hp
      have hne' : n ≠ oldName := by rintro rfl; rw [hsource] at hp; cases hp
      rw [if_neg hne, Option.bind_none]
      split
      · rw [Table.remove_apply, if_neg hne', view_of _ hn, hp, Option.bind_none]
      · rw [view_of _ hn, hp, Option.bind_none]
    | some p =>
      rw [Option.bind_some, Table.put_apply]
      have hdestiff : p = dest ↔ n = newName := by
        refine ⟨fun heq => hinj n newName p hn hnew hp (heq ▸ hdest), ?_⟩
        rintro rfl
        exact Option.some.inj (hp.symm.trans hdest)
      have hsourceiff : p = source ↔ n = oldName := by
        refine ⟨fun heq => hinj n oldName p hn hold hp (heq ▸ hsource), ?_⟩
        rintro rfl
        exact Option.some.inj (hp.symm.trans hsource)
      simp only [hdestiff]
      split
      · rfl
      · split
        · rw [Table.remove_apply, Table.remove_apply, view_of _ hn, hp, Option.bind_some]
          simp only [hsourceiff]
        · rw [view_of _ hn, hp, Option.bind_some]
  · have hne : n ≠ newName := by rintro rfl; exact hn hnew
    have hne' : n ≠ oldName := by rintro rfl; exact hn hold
    rw [if_neg hne, view_of_not _ hn]
    split
    · rw [Table.remove_apply, if_neg hne', view_of_not _ hn]
    · rw [view_of_not _ hn]

theorem performCommandIn_follows (program : Program) (disk : Disk δ φ) (hinj : LocateInj D N d) (hold : N oldName)
    (hnew : N newName) (result : CommandResult) :
    let r := performCommandIn D program result d oldName newName disk
    performCommand program (D.resultFor d newName result) oldName newName (D.view N d disk) =
        (r.1, D.view N d r.2) ∧
      ∀ p, (∀ n, N n → D.locate d n ≠ some p) → r.2 p = disk p := by
  have hview := view_of (D := D) (d := d) disk hold
  cases result with
  | notStarted => exact ⟨rfl, fun _ _ => rfl⟩
  | failed => exact ⟨rfl, fun _ _ => rfl⟩
  | done =>
    cases hdest : D.locate d newName with
    | none =>
      have hresult : D.resultFor d newName .done = .failed := if_pos ⟨rfl, hdest⟩
      unfold performCommandIn
      rw [hresult, hdest]
      cases D.locate d oldName <;> exact ⟨rfl, fun _ _ => rfl⟩
    | some dest =>
      have hresult : D.resultFor d newName .done = .done := if_neg fun h => by rw [hdest] at h; cases h.2
      rw [hresult]
      cases hsource : D.locate d oldName with
      | none =>
        rw [hsource, Option.bind_none] at hview
        simp only [performCommandIn, performCommand, hsource, hdest, hview]
        exact ⟨trivial, fun _ _ => trivial⟩
      | some source =>
        rw [hsource, Option.bind_some] at hview
        cases hfile : disk source with
        | none =>
          rw [hfile] at hview
          simp only [performCommandIn, performCommand, hsource, hdest, hfile, hview]
          exact ⟨trivial, fun _ _ => trivial⟩
        | some file =>
          rw [hfile] at hview
          simp only [performCommandIn, performCommand, hsource, hdest, hfile, hview]
          rw [view_put hinj hold hnew hsource hdest]
          refine ⟨rfl, fun p hp => ?_⟩
          have hne : p ≠ dest := by rintro rfl; exact hp newName hnew hdest
          have hne' : p ≠ source := by rintro rfl; exact hp oldName hold hsource
          rw [Table.put_ne _ _ hne]
          split
          · rw [Table.remove_ne _ hne']
          · rfl

/-! ### Runs on the disk and on names -/

/-- The table `fs` is what the names have on the disk; what they do not stand for is as it was in `disk₀`. -/
structure Seen (D : Tree δ) (d : δ) (N : CString → Prop) (disk₀ disk : Disk δ φ) (fs : FileSys φ) : Prop where
  fs : fs = D.view N d disk
  free : ∀ p, (∀ n, N n → D.locate d n ≠ some p) → disk p = disk₀ p

structure Follows (D : Tree δ) (d : δ) (N : CString → Prop) (disk₀ : Disk δ φ) (w : DiskState δ φ)
    (v : ApplyState φ) : Prop where
  heap : v.heap = w.heap
  workFiles : v.workFiles = w.workFiles
  seen : Seen D d N disk₀ w.disk v.fs

structure LaunchFollows (D : Tree δ) (d : δ) (N : CString → Prop) (disk₀ : Disk δ φ) (l : DiskLaunch δ φ)
    (l' : Launch φ) : Prop where
  oldName : l'.oldName = l.oldName
  newName : l'.newName = l.newName
  seen : Seen D d N disk₀ l.disk l'.fs

theorem exists_of_forall₂ {α β : Type} {R : α → β → Prop} {l : List α} {l' : List β} (h : List.Forall₂ R l l') :
    ∀ a ∈ l, ∃ b ∈ l', R a b := by
  induction h with
  | nil => simp
  | cons hab _ ih =>
    intro a ha
    rcases List.mem_cons.mp ha with rfl | ha
    · exact ⟨_, List.mem_cons_self, hab⟩
    · obtain ⟨b, hb, hab⟩ := ih a ha
      exact ⟨b, List.mem_cons_of_mem _ hb, hab⟩

structure ResultFollows (D : Tree δ) (d : δ) (N : CString → Prop) (disk₀ : Disk δ φ) (r : DiskResult δ φ)
    (r' : ApplyResult φ) : Prop where
  state : Follows D d N disk₀ r.state r'.state
  kept : r'.kept = r.kept
  fail : r'.fail = r.fail
  launched : List.Forall₂ (LaunchFollows D d N disk₀) r.launched r'.launched

/-- The results of the commands, with another first one. -/
def resultsFrom (first : CommandResult) (next : Nat → CommandResult) : Nat → CommandResult
  | 0 => first
  | i + 1 => next i

theorem resultsFrom_eq {outcome next : Nat → CommandResult} (h : next = fun i => outcome (i + 1)) :
    resultsFrom (outcome 0) next = outcome := by
  subst h
  funext i
  cases i <;> rfl

variable {w : DiskState δ φ} {v : ApplyState φ} {simulate : Bool}

omit [DecidableEq δ] in
theorem Follows.complete (f : Follows D d N disk₀ w v) (s : SpecId) {fs : FileSys φ}
    (hseen : Seen D d N disk₀ disk fs) : Follows D d N disk₀ (w.complete s disk) (v.complete s fs) :=
  ⟨by rw [ApplyState.complete, DiskState.complete, f.heap], by
    rw [ApplyState.complete, DiskState.complete, f.workFiles], hseen⟩

/-- The loop on the disk is one on names, with the same results of the commands but for those that have no
directory to go to. -/
theorem Follows.loop (f : Follows D d N disk₀ w v) (program : Program) (simulate : Bool)
    (hinj : LocateInj D N d) {ok : List SpecId} (outcome : Nat → CommandResult)
    (hnames : ∀ s ∈ ok, N (w.heap.oldName s) ∧ N (w.heap.newName s)) (hcwd : w.dirs.cwd = d) :
    ∃ outcome', ResultFollows D d N disk₀ (applyLoopIn D program simulate ok outcome w)
        (applyLoop program simulate ok outcome' v) ∧
      (applyLoopIn D program simulate ok outcome w).state.dirs = w.dirs ∧
      ((∀ n, N n → D.locate d n ≠ none) → outcome' = outcome) := by
  induction ok generalizing outcome w v with
  | nil => exact ⟨outcome, ⟨f, rfl, rfl, .nil⟩, rfl, fun _ => rfl⟩
  | cons s ok ih =>
    obtain ⟨⟨hold, hnew⟩, hok⟩ := List.forall_mem_cons.mp hnames
    obtain ⟨heap, workFiles, fs⟩ := v
    obtain rfl : heap = w.heap := f.heap
    by_cases hskip : (w.heap.status s).isOk = false ∨ w.heap.prevSpec s ≠ none
    · obtain ⟨next, hr, hdirs, hsame⟩ := ih f (fun i => outcome (i + 1)) hok hcwd
      refine ⟨resultsFrom (outcome 0) next, ?_, ?_, fun h => resultsFrom_eq (hsame h)⟩
      · simp only [applyLoopIn, applyLoop, if_pos hskip]
        exact ⟨hr.state, congrArg (s :: ·) hr.kept, hr.fail, hr.launched⟩
      · simp only [applyLoopIn, if_pos hskip]
        exact hdirs
    have hprev : w.heap.prevSpec s = none := not_not.mp fun h => hskip (.inr h)
    have hcompleted (disk : Disk δ φ) : ∀ t ∈ ok,
        N ((w.complete s disk).heap.oldName t) ∧ N ((w.complete s disk).heap.newName t) := by
      intro t ht
      rw [DiskState.complete, freeFileSpec_oldName hprev, freeFileSpec_newName hprev]
      exact hok t ht
    cases hsim : simulate with
    | true =>
      subst hsim
      obtain ⟨next, hr, hdirs, hsame⟩ := ih (f.complete s f.seen) (fun i => outcome (i + 1))
        (hcompleted w.disk) hcwd
      refine ⟨resultsFrom (outcome 0) next, ?_, ?_, fun h => resultsFrom_eq (hsame h)⟩
      · simp only [applyLoopIn, applyLoop, if_neg hskip, if_true]
        exact hr
      · simp only [applyLoopIn, if_neg hskip, if_true]
        exact hdirs
    | false =>
      subst hsim
      obtain ⟨hcommand, hfree⟩ := performCommandIn_follows program w.disk hinj hold hnew
        (outcome 0)
      rw [← show fs = D.view N d w.disk from f.seen.fs] at hcommand
      have hlaunch : List.Forall₂ (LaunchFollows D d N disk₀)
          (if outcome 0 = .notStarted then [] else [⟨w.heap.oldName s, w.heap.newName s, w.disk⟩])
          (if D.resultFor d (w.heap.newName s) (outcome 0) = .notStarted then []
            else [⟨w.heap.oldName s, w.heap.newName s, fs⟩]) := by
        simp only [resultFor_notStarted]
        split
        · exact .nil
        · exact .cons ⟨rfl, rfl, f.seen⟩ .nil
      have hfirst : (∀ n, N n → D.locate d n ≠ none) → D.resultFor d (w.heap.newName s) (outcome 0) = outcome 0 :=
        fun h => if_neg fun hno => h _ hnew hno.2
      rcases hrun : performCommandIn D program (outcome 0) d (w.heap.oldName s) (w.heap.newName s) w.disk with
        ⟨_ | _, disk⟩ <;> rw [hrun] at hcommand hfree
      · have hseen : Seen D d N disk₀ disk (D.view N d disk) := ⟨rfl, fun p hp => (hfree p hp).trans (f.seen.free p hp)⟩
        obtain ⟨next, hr, hdirs, hsame⟩ := ih (w := { w with disk := disk })
          (v := ⟨w.heap, workFiles, D.view N d disk⟩) ⟨rfl, f.workFiles, hseen⟩ (fun i => outcome (i + 1)) hok hcwd
        refine ⟨resultsFrom (D.resultFor d (w.heap.newName s) (outcome 0)) next, ?_, ?_, fun h => ?_⟩
        · simp only [applyLoopIn, applyLoop, if_neg hskip, Bool.false_eq_true, if_false, hcwd, hrun,
            resultsFrom, hcommand]
          exact ⟨hr.state, congrArg (s :: ·) hr.kept, rfl, List.rel_append hlaunch hr.launched⟩
        · simp only [applyLoopIn, if_neg hskip, Bool.false_eq_true, if_false, hcwd, hrun]
          exact hdirs
        · rw [hfirst h]
          exact resultsFrom_eq (hsame h)
      · have hseen : Seen D d N disk₀ disk (D.view N d disk) := ⟨rfl, fun p hp => (hfree p hp).trans (f.seen.free p hp)⟩
        obtain ⟨next, hr, hdirs, hsame⟩ := ih (f.complete s hseen) (fun i => outcome (i + 1)) (hcompleted disk) hcwd
        refine ⟨resultsFrom (D.resultFor d (w.heap.newName s) (outcome 0)) next, ?_, ?_, fun h => ?_⟩
        · simp only [applyLoopIn, applyLoop, if_neg hskip, Bool.false_eq_true, if_false, hcwd, hrun,
            resultsFrom, hcommand]
          exact ⟨hr.state, hr.kept, hr.fail, List.rel_append hlaunch hr.launched⟩
        · simp only [applyLoopIn, if_neg hskip, Bool.false_eq_true, if_false, hcwd, hrun]
          exact hdirs
        · rw [hfirst h]
          exact resultsFrom_eq (hsame h)

/-- From the directory of the process `work_directory` leads to `d`. -/
structure Works (D : Tree δ) (d : δ) (workDirectory : CString) (dirs : WorkDir δ) : Prop where
  name : dirs.workDirectory = workDirectory
  leads : D.walk dirs.cwd workDirectory = some d

/-- The process gets back, or `work_directory` leads from there to itself. -/
def ApplyEnv.GetsBack (D : Tree δ) (d : δ) (workDirectory : CString) (env : ApplyEnv) : Prop :=
  env.cwdFrom = true ∨ D.walk d workDirectory = some d

variable {dirs : WorkDir δ} {workDirectory : CString} {env : ApplyEnv} {plan : ApplyPlan}

omit [DecidableEq δ] in
theorem cwdTo_works (hd : Works D d workDirectory dirs) (env : ApplyEnv) :
    let r := cwdToWorkDirectory (env.dirCalls D dirs) dirs
    (env.cwdTo = true → r.1 = true) ∧ (r.1 = false → Works D d workDirectory r.2) ∧
      (r.1 = true → r.2.workDirectory = workDirectory ∧ r.2.cwd = d ∧
        (r.2.oldDir = .none ∧ D.walk d workDirectory = some d ∨ r.2.oldDir = .opened dirs.cwd)) := by
  obtain ⟨name, oldDir, cwd⟩ := dirs
  obtain ⟨rfl, hwalk⟩ := hd
  dsimp only at hwalk
  unfold cwdToWorkDirectory ApplyEnv.dirCalls
  by_cases hdot : name = dot
  · subst hdot
    have hstays := Directories.walk_dot (D := D) (d := cwd) (by decide) (by decide)
    obtain rfl : cwd = d := Option.some.inj (hstays.symm.trans hwalk)
    simp only [if_true]
    exact ⟨fun _ => trivial, by simp, fun _ => ⟨trivial, trivial, .inl ⟨trivial, hwalk⟩⟩⟩
  · simp only [if_neg hdot]
    cases env.cwdTo with
    | false =>
      simp only [Bool.not_false, if_true]
      exact ⟨by simp, fun _ => ⟨rfl, hwalk⟩, by simp⟩
    | true =>
      simp only [Bool.not_true, Bool.false_eq_true, if_false, hwalk]
      exact ⟨fun _ => trivial, by simp, fun _ => ⟨trivial, trivial, .inr trivial⟩⟩

omit [DecidableEq δ] in
theorem cwdFrom_works {cwd : δ} (hd : D.walk cwd workDirectory = some d) (env : ApplyEnv)
    (hback : env.GetsBack D d workDirectory) (before : WorkDir δ) {oldDir : OldDir δ}
    (hold : oldDir = .none ∧ D.walk d workDirectory = some d ∨ oldDir = .opened cwd) :
    let r := cwdFromWorkDirectory (env.dirCalls D before) ⟨workDirectory, oldDir, d⟩
    (env.cwdFrom = true → r.1 = true) ∧ Works D d workDirectory r.2 := by
  rcases hold with ⟨rfl, hself⟩ | rfl
  · exact ⟨fun _ => rfl, rfl, hself⟩
  · unfold cwdFromWorkDirectory ApplyEnv.dirCalls OldDir.fchdir
    rcases hback with hfrom | hself
    · simp only [hfrom, if_true]
      exact ⟨fun _ => trivial, rfl, hd⟩
    · cases env.cwdFrom with
      | false =>
        simp only [Bool.false_eq_true, if_false]
        exact ⟨by simp, rfl, hself⟩
      | true =>
        simp only [if_true]
        exact ⟨fun _ => trivial, rfl, hd⟩

structure AppliedFollows (D : Tree δ) (d : δ) (N : CString → Prop) (disk₀ : Disk δ φ) (r : DiskApplied δ φ)
    (r' : Applied φ) : Prop where
  state : Follows D d N disk₀ r.state r'.state
  plan : r'.plan = r.plan
  returned : r'.returned = r.returned
  launched : List.Forall₂ (LaunchFollows D d N disk₀) r.launched r'.launched

theorem Follows.call (f : Follows D d N disk₀ w v) (program : Program) (simulate : Bool)
    (hinj : LocateInj D N d) (hnames : ∀ s ∈ plan.ok, N (w.heap.oldName s) ∧ N (w.heap.newName s))
    (hd : Works D d workDirectory w.dirs) (hback : env.GetsBack D d workDirectory) :
    ∃ env' : ApplyEnv, AppliedFollows D d N disk₀ (applyPlanIn D program simulate env plan w)
        (applyPlan program simulate env' plan v) ∧
      Works D d workDirectory (applyPlanIn D program simulate env plan w).state.dirs ∧
      ((∀ n, N n → D.locate d n ≠ none) → env'.outcome = env.outcome) ∧
      (env.cwdTo = true → env'.cwdTo = true) ∧ (env.cwdFrom = true → env'.cwdFrom = true) := by
  by_cases hnil : plan.ok = []
  · refine ⟨env, ?_, ?_, fun _ => rfl, id, id⟩
    · rw [applyPlanIn, applyPlan, if_pos hnil, if_pos hnil]
      exact ⟨f, rfl, rfl, .nil⟩
    · rw [applyPlanIn, if_pos hnil]
      exact hd
  obtain ⟨hto, hfails, henters⟩ := cwdTo_works hd env
  rcases hentered : cwdToWorkDirectory (env.dirCalls D w.dirs) w.dirs with ⟨_ | _, entered⟩ <;>
    rw [hentered] at hto hfails henters
  · have hno : env.cwdTo ≠ true := fun h => by cases hto h
    refine ⟨⟨false, env.cwdFrom, env.outcome⟩, ?_, ?_, fun _ => rfl, fun h => absurd h hno, id⟩
    · simp only [applyPlanIn, applyPlan, if_neg hnil, hentered, Bool.not_false, if_true]
      exact ⟨⟨f.heap, f.workFiles, f.seen⟩, rfl, rfl, .nil⟩
    · simp only [applyPlanIn, if_neg hnil, hentered, Bool.not_false, if_true]
      exact hfails rfl
  · obtain ⟨hname, hcwd, hold⟩ := henters rfl
    have f' : Follows D d N disk₀ { w with dirs := entered } v := ⟨f.heap, f.workFiles, f.seen⟩
    obtain ⟨outcome', hr, hdirs, hsame⟩ := f'.loop program simulate hinj env.outcome hnames hcwd
    obtain ⟨hfrom, hworks⟩ := cwdFrom_works hd.leads env hback w.dirs hold
    rcases hleft : cwdFromWorkDirectory (env.dirCalls D w.dirs) entered with ⟨left, dirs'⟩
    have hentered' : entered = ⟨workDirectory, entered.oldDir, d⟩ := by rw [← hname, ← hcwd]
    rw [← hentered', hleft] at hfrom hworks
    refine ⟨⟨true, left, outcome'⟩, ?_, ?_, hsame, fun _ => rfl, hfrom⟩
    · simp only [applyPlanIn, applyPlan, if_neg hnil, hentered, Bool.not_true, Bool.false_eq_true, if_false, hdirs,
        hleft]
      exact ⟨⟨hr.state.heap, hr.state.workFiles, hr.state.seen⟩, by rw [hr.kept], by rw [hr.fail], hr.launched⟩
    · simp only [applyPlanIn, if_neg hnil, hentered, Bool.not_true, Bool.false_eq_true, if_false, hdirs, hleft]
      exact hworks

theorem applyPlan_names (program : Program) (simulate : Bool) (env : ApplyEnv)
    (hnames : ∀ s ∈ plan.ok, N (v.heap.oldName s) ∧ N (v.heap.newName s)) :
    (∀ s ∈ (applyPlan program simulate env plan v).plan.ok,
      N ((applyPlan program simulate env plan v).state.heap.oldName s) ∧
        N ((applyPlan program simulate env plan v).state.heap.newName s)) ∧
    ∀ l ∈ (applyPlan program simulate env plan v).launched, N l.oldName ∧ N l.newName := by
  refine applyPlan_rule (I := fun ok (v : ApplyState φ) => ∀ s ∈ ok, N (v.heap.oldName s) ∧ N (v.heap.newName s))
    (P := fun l => N l.oldName ∧ N l.newName) ?_ (fun l s v h hs _ _ _ => h s hs) env hnames
  intro kept s rest v fs h _ hprev _ t ht
  rw [ApplyState.complete, freeFileSpec_oldName hprev, freeFileSpec_newName hprev]
  refine h t ?_
  rcases List.mem_append.mp ht with ht | ht
  · exact List.mem_append_left _ ht
  · exact List.mem_append_right _ (List.mem_cons_of_mem _ ht)

theorem Follows.runs (f : Follows D d N disk₀ w v) (program : Program) (simulate : Bool)
    (hinj : LocateInj D N d) {envs : List ApplyEnv}
    (hnames : ∀ s ∈ plan.ok, N (w.heap.oldName s) ∧ N (w.heap.newName s)) (hd : Works D d workDirectory w.dirs)
    (hback : ∀ env ∈ envs, env.GetsBack D d workDirectory) :
    ∃ envs', AppliedFollows D d N disk₀ (applyRunsIn D program simulate envs plan w)
      (applyRuns program simulate envs' plan v) := by
  induction envs generalizing plan w v with
  | nil => exact ⟨[], f, rfl, rfl, .nil⟩
  | cons env envs ih =>
    obtain ⟨hback₁, hback⟩ := List.forall_mem_cons.mp hback
    obtain ⟨env', hr, hworks, -⟩ := f.call program simulate hinj hnames hd hback₁
    rw [← f.heap] at hnames
    obtain ⟨hnames', -⟩ := applyPlan_names program simulate env' hnames
    rw [hr.plan, hr.state.heap] at hnames'
    obtain ⟨envs', hrs⟩ := ih hr.state hnames' hworks hback
    refine ⟨env' :: envs', ?_⟩
    rw [applyRunsIn, applyRuns, hr.plan]
    exact ⟨hrs.state, hrs.plan, hrs.returned, List.rel_append hr.launched hrs.launched⟩

end

end Renameutils
