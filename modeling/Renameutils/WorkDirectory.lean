import Mathlib.Data.List.TakeWhile
import Renameutils.Lib.Paths
import Renameutils.ListFiles

/-!
# The work directory

`make_plan` looks for the files from the directory of the process, under `cat_files(work_directory, name)`;
`apply_plan` changes to `work_directory` and runs the commands on the bare names. Here the files are in a tree of
directories, at places, instead of one flat table of names. Where a component leads is a parameter, and the
commands do not change it: they move entries, and the directories that the names go through stay.

`sameFile_iff` says when the two look at the same file: not for an absolute name, say.
-/

namespace Renameutils

def dotDot : CString := [46, 46]

/-- Directories as `chdir` follows them. -/
abbrev Tree (δ : Type) := Directories slash dot dotDot δ

/-- What is at each place: an entry of a directory. -/
abbrev Disk (δ φ : Type) := Table (δ × CString) φ

/-! ### The functions -/

/-- `ends_with`, for the string `e`. -/
def endsWith (str e : CString) : Bool := e.length ≤ str.length && str.drop (str.length - e.length) = e

def catFiles (file file2 : CString) : CString :=
  if file = dot then file2 else file ++ (if endsWith file [slash] then [] else [slash]) ++ file2

section
variable {δ φ : Type} [DecidableEq δ] (D : Tree δ)

/-- `lstat`. -/
def Tree.find (disk : Disk δ φ) (cwd : δ) (path : CString) : Option φ := (D.locate cwd path).bind disk

/-- `file_exists(cat_files(work_directory, name))`. -/
def fileExistsIn (disk : Disk δ φ) (dirs : WorkDir δ) (name : CString) : Bool :=
  (D.find disk dirs.cwd (catFiles dirs.workDirectory name)).isSome

/-- `perform_command` in the directory `cwd`. A command fails when its source does not exist, and when there is no
directory for its destination. -/
def performCommandIn (program : Program) (result : CommandResult) (cwd : δ) (oldName newName : CString)
    (disk : Disk δ φ) : Bool × Disk δ φ :=
  match result, D.locate cwd oldName, D.locate cwd newName with
  | .done, some source, some dest =>
    match disk source with
    | some file => (true, ((if program = .qmv then disk.remove source else disk)).put dest file)
    | none => (false, disk)
  | _, _, _ => (false, disk)

structure DiskLaunch (δ φ : Type) where
  oldName : CString
  newName : CString
  disk : Disk δ φ

structure DiskState (δ φ : Type) where
  heap : Heap
  workFiles : List SpecId
  dirs : WorkDir δ
  disk : Disk δ φ

/-- `llist_remove(work_files, spec); free_file_spec(spec);` -/
def DiskState.complete (w : DiskState δ φ) (spec : SpecId) (disk : Disk δ φ) : DiskState δ φ where
  heap := w.heap.freeFileSpec spec
  workFiles := w.workFiles.erase spec
  dirs := w.dirs
  disk := disk

structure DiskResult (δ φ : Type) where
  state : DiskState δ φ
  kept : List SpecId
  fail : Bool
  launched : List (DiskLaunch δ φ)

def applyLoopIn (program : Program) (simulate : Bool) :
    List SpecId → (Nat → CommandResult) → DiskState δ φ → DiskResult δ φ
  | [], _, w => ⟨w, [], false, []⟩
  | spec :: rest, outcome, w =>
    let next := fun i => outcome (i + 1)
    if (w.heap.status spec).isOk = false ∨ w.heap.prevSpec spec ≠ none then
      let r := applyLoopIn program simulate rest next w
      { r with kept := spec :: r.kept }
    else if simulate then
      applyLoopIn program simulate rest next (w.complete spec w.disk)
    else
      let oldName := w.heap.oldName spec
      let newName := w.heap.newName spec
      let launch := if outcome 0 = .notStarted then [] else [⟨oldName, newName, w.disk⟩]
      match performCommandIn D program (outcome 0) w.dirs.cwd oldName newName w.disk with
      | (true, disk) =>
        let r := applyLoopIn program simulate rest next (w.complete spec disk)
        { r with launched := launch ++ r.launched }
      | (false, disk) =>
        let r := applyLoopIn program simulate rest next { w with disk := disk }
        { r with kept := spec :: r.kept, fail := true, launched := launch ++ r.launched }

/-- What becomes of `open`, `chdir` and `fchdir`. -/
def ApplyEnv.dirCalls (env : ApplyEnv) (dirs : WorkDir δ) : ListEnv δ where
  isDirectory _ := false
  openDot := env.cwdTo
  chdir := D.walk dirs.cwd dirs.workDirectory
  fchdir := env.cwdFrom

structure DiskApplied (δ φ : Type) where
  state : DiskState δ φ
  plan : ApplyPlan
  returned : Bool
  launched : List (DiskLaunch δ φ)

/-- `apply_plan`, with `cwd_to_work_directory` and `cwd_from_work_directory`. -/
def applyPlanIn (program : Program) (simulate : Bool) (env : ApplyEnv) (plan : ApplyPlan)
    (w : DiskState δ φ) : DiskApplied δ φ :=
  if plan.ok = [] then ⟨w, plan, true, []⟩
  else
    let calls := env.dirCalls D w.dirs
    let entered := cwdToWorkDirectory calls w.dirs
    if !entered.1 then ⟨{ w with dirs := entered.2 }, plan, false, []⟩
    else
      let r := applyLoopIn D program simulate plan.ok env.outcome { w with dirs := entered.2 }
      let left := cwdFromWorkDirectory calls r.state.dirs
      ⟨{ r.state with dirs := left.2 }, { plan with ok := r.kept }, left.1 && !r.fail, r.launched⟩

def applyRunsIn (program : Program) (simulate : Bool) :
    List ApplyEnv → ApplyPlan → DiskState δ φ → DiskApplied δ φ
  | [], plan, w => ⟨w, plan, true, []⟩
  | env :: envs, plan, w =>
    let r := applyPlanIn D program simulate env plan w
    let r' := applyRunsIn program simulate envs r.plan r.state
    { r' with launched := r.launched ++ r'.launched }

end

/-! ### Names below the work directory -/

section
variable {δ φ : Type} {D : Tree δ} {cwd d : δ} {dir name : CString}

theorem endsWith_slash (str : CString) : endsWith str [slash] = true ↔ str.getLast? = some slash := by
  rcases List.eq_nil_or_concat str with rfl | ⟨str', c, rfl⟩
  · simp [endsWith]
  · simp [endsWith]

theorem catFiles_eq_join (hdir : dir ≠ dot) : catFiles dir name = Directories.join slash dir name := by
  rw [catFiles, if_neg hdir, Directories.join]
  by_cases h : dir.getLast? = some slash
  · rw [if_pos ((endsWith_slash dir).mpr h), if_pos h, List.append_nil]
  · rw [if_neg fun hends => h ((endsWith_slash dir).mp hends), if_neg h, List.append_assoc, List.singleton_append]

theorem walk_ne_nil (hd : D.walk cwd dir = some d) : dir ≠ [] := by
  rintro rfl
  cases hd

theorem locate_catFiles_eq (hdot : dir ≠ dot) (hd : D.walk cwd dir = some d) (hne : name ≠ []) :
    D.locate cwd (catFiles dir name) = D.place d name := by
  rw [catFiles_eq_join hdot, Directories.locate_join (walk_ne_nil hd) hne, hd, Option.bind_some]

theorem locate_catFiles (hd : D.walk cwd dir = some d) (hne : name ≠ []) (hrel : name.head? ≠ some slash) :
    D.locate cwd (catFiles dir name) = D.locate d name := by
  by_cases hdot : dir = dot
  · subst hdot
    rw [Directories.walk_dot (by decide) (by decide)] at hd
    cases hd
    rw [catFiles, if_pos rfl]
  · rw [locate_catFiles_eq hdot hd hne, Directories.locate_relative hrel]

end

/-! ### Where the plan looks -/

/-- A component that does not lead on. -/
def stays (c : CString) : Bool := c = [] || c = dot

/-- A component that does not lead out of the root. -/
def staysInRoot (c : CString) : Bool := stays c || c = dotDot

/-- Directories of which no two paths lead to the same one, but for the root: each has a child for every name. -/
def freeTree : Tree (List CString) where
  root := []
  enter d c := some (if stays c || (d = [] && c = dotDot) then d else d ++ [c])
  enter_nil _ := rfl
  enter_dot _ := rfl
  enter_up := rfl

/-- The components that lead on from the directory `d` of the free tree. -/
def freeSteps (d cs : List CString) : List CString :=
  (if d = [] then cs.dropWhile staysInRoot else cs).filter fun c => !stays c

theorem freeTree_enter (cs : List CString) (d : List CString) :
    cs.foldlM freeTree.enter d = some (d ++ freeSteps d cs) := by
  induction cs generalizing d with
  | nil =>
    rw [freeSteps, List.dropWhile_nil, ite_self, List.filter_nil, List.append_nil]
    rfl
  | cons c cs ih =>
    have hcons : (c :: cs).foldlM freeTree.enter d =
        cs.foldlM freeTree.enter (if stays c || (d = [] && c = dotDot) then d else d ++ [c]) := rfl
    rw [hcons, ih]
    by_cases hd : d = []
    · subst hd
      by_cases hc : staysInRoot c = true
      · have hstays : (stays c || (([] : List CString) = [] && c = dotDot)) = true := by simpa [staysInRoot] using hc
        rw [if_pos hstays, freeSteps, freeSteps, if_pos rfl, if_pos rfl, List.dropWhile_cons_of_pos hc]
      · have hstays : ¬ (stays c || (([] : List CString) = [] && c = dotDot)) = true := by simpa [staysInRoot] using hc
        have hnot : (!stays c) = true := by simp_all
        rw [if_neg hstays, freeSteps, freeSteps, if_pos rfl, if_neg (by simp), List.dropWhile_cons_of_neg hc,
          List.filter_cons, if_pos hnot]
        rfl
    · simp only [hd, freeSteps, if_false, decide_false, Bool.false_and, Bool.or_false, List.filter_cons]
      cases stays c <;> simp [hd]

theorem freeSteps_eq_nil {cs : List CString} (h : freeSteps [] cs = []) : ∀ c ∈ cs, staysInRoot c = true := by
  rw [freeSteps, if_pos rfl, List.filter_eq_nil_iff] at h
  refine List.dropWhile_eq_nil_iff.mp ?_
  cases hrest : cs.dropWhile staysInRoot with
  | nil => rfl
  | cons c rest =>
    -- the first component that is left leads out of the root
    have hc : ¬ staysInRoot c = true := by
      have hhead := List.head?_dropWhile_not staysInRoot cs
      rw [hrest] at hhead
      simpa using hhead
    have hstays := h c (hrest ▸ List.mem_cons_self)
    rw [staysInRoot] at hc
    simp_all

/-- From another directory than the root at least as many components lead on. -/
theorem freeSteps_length_le (d cs : List CString) : (freeSteps [] cs).length ≤ (freeSteps d cs).length := by
  rw [freeSteps, if_pos rfl, freeSteps]
  split
  · exact le_rfl
  · exact ((List.dropWhile_suffix _).sublist.filter _).length_le

section
variable {δ : Type} {D : Tree δ} {cwd d : δ} {dir name : CString}

theorem walk_root {cs : List CString} (h : ∀ c ∈ cs, staysInRoot c = true) :
    cs.foldlM D.enter D.root = some D.root := by
  induction cs with
  | nil => rfl
  | cons c cs ih =>
    obtain ⟨hc, hcs⟩ := List.forall_mem_cons.mp h
    have henter : D.enter D.root c = some D.root := by
      simp only [staysInRoot, stays, Bool.or_eq_true, decide_eq_true_eq] at hc
      rcases hc with (rfl | rfl) | rfl
      · exact D.enter_nil D.root
      · exact D.enter_dot D.root
      · exact D.enter_up
    rw [List.foldlM_cons, henter]
    exact ih hcs

theorem freeTree_walk {cwd : List CString} (h : dir ≠ []) : freeTree.walk cwd dir =
    some (freeTree.start cwd dir ++ freeSteps (freeTree.start cwd dir) (dir.splitOn slash)) := by
  rw [Directories.walk, if_neg h, freeTree_enter]

theorem freeTree_place {d : List CString} (h : name ≠ []) : freeTree.place d name =
    some (d ++ freeSteps d (name.splitOn slash).dropLast, (name.splitOn slash).getLastD []) := by
  rw [Directories.place, if_neg h, freeTree_enter, Option.map_some]

/-- Where an absolute name is the same file from the work directory on and from the root on, the work directory is
the root. -/
theorem stays_of_sameFile (hnil : dir ≠ []) (hdot : dir ≠ dot) (habs : name.head? = some slash)
    (h : freeTree.locate [[0]] (catFiles dir name) = freeTree.locate
      (freeTree.start [[0]] dir ++ freeSteps (freeTree.start [[0]] dir) (dir.splitOn slash)) name) :
    dir.head? = some slash ∧ ∀ c ∈ dir.splitOn slash, staysInRoot c = true := by
  have hne : name ≠ [] := by rintro rfl; cases habs
  rw [locate_catFiles_eq hdot (freeTree_walk hnil) hne, Directories.locate_absolute habs, freeTree_place hne,
    freeTree_place hne] at h
  have hlength := congrArg (fun p => List.length p.1) (Option.some.inj h)
  have hroot : freeTree.start [[0]] dir ++ freeSteps (freeTree.start [[0]] dir) (dir.splitOn slash) = [] := by
    have hle := freeSteps_length_le
      (freeTree.start [[0]] dir ++ freeSteps (freeTree.start [[0]] dir) (dir.splitOn slash))
      (name.splitOn slash).dropLast
    simp only [List.length_append, show freeTree.root = [] from rfl, List.length_nil] at hlength
    refine List.eq_nil_of_length_eq_zero ?_
    rw [List.length_append]
    omega
  obtain ⟨hstart, hsteps⟩ := List.append_eq_nil_iff.mp hroot
  refine ⟨?_, fun c hc => ?_⟩
  · by_contra hrel
    rw [Directories.start_relative hrel] at hstart
    cases hstart
  · rw [hstart] at hsteps
    exact freeSteps_eq_nil hsteps c hc

/-- `make_plan` looks for the file that the commands act on, whatever the directories are, if and only if the work
directory is `.` or the name is not empty and relative, or both are absolute and the work directory is the root. -/
theorem sameFile_iff (dir name : CString) :
    (∀ (δ : Type) (D : Tree δ) (cwd d : δ), D.walk cwd dir = some d →
      D.locate cwd (catFiles dir name) = D.locate d name) ↔
    dir = [] ∨ dir = dot ∨ name ≠ [] ∧ (name.head? = some slash →
      dir.head? = some slash ∧ ∀ c ∈ dir.splitOn slash, c = [] ∨ c = dot ∨ c = dotDot) := by
  constructor
  · intro hsame
    by_cases hnil : dir = []
    · exact .inl hnil
    by_cases hdot : dir = dot
    · exact .inr (.inl hdot)
    refine .inr (.inr ⟨?_, fun habs => ?_⟩)
    · rintro rfl
      have h := hsame _ freeTree [] _ (freeTree_walk hnil)
      have hjoin : catFiles dir [] ≠ [] := by simp [catFiles, hdot, hnil]
      rw [Directories.locate, freeTree_place hjoin] at h
      cases h
    · obtain ⟨hdir, hstays⟩ := stays_of_sameFile hnil hdot habs (hsame _ freeTree [[0]] _ (freeTree_walk hnil))
      exact ⟨hdir, fun c hc => by simpa [staysInRoot, stays, or_assoc] using hstays c hc⟩
  · rintro (rfl | rfl | ⟨hne, habs⟩) δ D cwd d hd
    · cases hd
    · rw [Directories.walk_dot (by decide) (by decide)] at hd
      cases hd
      rw [catFiles, if_pos rfl]
    · by_cases hrel : name.head? = some slash
      · obtain ⟨hdir, hstays⟩ := habs hrel
        have hdot : dir ≠ dot := by rintro rfl; exact absurd hdir (by decide)
        have hroot : D.walk cwd dir = some D.root := by
          rw [Directories.walk, if_neg (walk_ne_nil hd), Directories.start, if_pos hdir]
          exact walk_root fun c hc => by simpa [staysInRoot, stays, or_assoc] using hstays c hc
        obtain rfl : D.root = d := Option.some.inj (hroot.symm.trans hd)
        rw [locate_catFiles_eq hdot hd hne, Directories.locate_absolute hrel]
      · exact locate_catFiles hd hne hrel

end

end Renameutils
