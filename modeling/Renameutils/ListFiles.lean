import Renameutils.SessionInv

/-!
# Listing files (`list_files`, `list.c`)

`Session.listFiles` says what a `list` command does to the list. Here is the rest of `list_files`: the
directory that the process is in, `work_directory` and `old_dir`, and every place where the function
fails. `listFiles_session` connects the two. `listFiles_keeps_iff` says when a failing `list` leaves the
directories as they were.
-/

namespace Renameutils
open CString

/-- `"."` -/
def dot : CString := [46]

/-- `"--quoting-style=c"` -/
def quotingStyleC : CString := [45, 45, 113, 117, 111, 116, 105, 110, 103, 45, 115, 116, 121, 108, 101, 61, 99]

/-- `old_dir`: -1, the descriptor of a directory, or what is left of a descriptor that was closed. -/
inductive OldDir (δ : Type) where
  | none
  | opened (dir : δ)
  | closed
deriving DecidableEq, Repr

/-- `work_directory`, `old_dir` and the current directory of the process. -/
structure WorkDir (δ : Type) where
  workDirectory : CString := dot
  oldDir : OldDir δ := .none
  cwd : δ
deriving DecidableEq, Repr

/-- `ls_program` and `ls_options`. `directory` is whether `"--directory"` is one of the options:
`llist_contains` looks for the pointer, so an argument of another option is not taken for it. -/
structure LsOptions where
  program : CString
  options : List CString := []
  directory : Bool := false

/-- A line that `ls` prints, blank ones apart: the name of a directory with a `:` after it, or a name. -/
inductive LsLine where
  | directory (name : CString)
  | entry (name : CString)
deriving DecidableEq, Repr

/-- What happens while `list_files` runs: what `is_directory` says of the first of the arguments that are
left, which calls succeed and where `chdir` leads, what `ls` prints and how it ends. `fchdir` is about a
descriptor that is open; what `fchdir` does with the number of a closed one is `fchdirClosed`. -/
structure ListEnv (δ : Type) where
  isDirectory : List CString → Bool
  openDot : Bool := true
  chdir : Option δ
  pipe : Bool := true
  fork : Bool := true
  closePipe : Bool := true
  fchdir : Bool := true
  fchdirClosed : Option δ := none
  fdopen : Bool := true
  firstdirIsDirectory : Bool := false
  lines : List LsLine := []
  ferror : Bool := false
  closeLs : Bool := true
  waitpid : Bool := true
  exited : Bool := true

section
variable {δ φ : Type}

/-- Where `fchdir(old_dir)` leads. -/
def OldDir.fchdir (env : ListEnv δ) : OldDir δ → Option δ
  | .none => Option.none
  | .opened dir => if env.fchdir then some dir else Option.none
  | .closed => env.fchdirClosed

def cwdFromWorkDirectory (env : ListEnv δ) (w : WorkDir δ) : Bool × WorkDir δ :=
  match w.oldDir with
  | .none => (true, w)
  | old => match old.fchdir env with
    | none => (false, { w with oldDir := .closed })
    | some dir => (true, { w with oldDir := .none, cwd := dir })

def cwdToWorkDirectory (env : ListEnv δ) (w : WorkDir δ) : Bool × WorkDir δ :=
  if w.workDirectory = dot then (true, { w with oldDir := .none })
  else if !env.openDot then (false, { w with oldDir := .none })
  else match env.chdir with
    | none => (false, { w with oldDir := .closed })
    | some dir => (true, { w with oldDir := .opened w.cwd, cwd := dir })

/-- The loop over `args`, with `firstdir` and `ls_args_list`. `isFirstdir` is whether `*args` is the
pointer `firstdir`. The result is `none` where the function returns false. -/
def listArgs (o : LsOptions) (env : ListEnv δ) : List CString → Bool → Option CString → List CString →
    WorkDir δ → WorkDir δ × Option (Option CString × List CString)
  | [], _, firstdir, lsArgs, w => (w, some (firstdir, lsArgs))
  | arg :: args, isFirstdir, firstdir, lsArgs, w =>
    if isFirstdir && args.isEmpty then
      if env.isDirectory (arg :: args) then
        let entered := cwdToWorkDirectory env { w with workDirectory := arg }
        if !entered.1 then ({ entered.2 with workDirectory := w.workDirectory }, none)
        else listArgs o env args false (some dot) (lsArgs ++ [dot]) entered.2
      else listArgs o env args false firstdir (lsArgs ++ [arg]) w
    else if env.isDirectory (arg :: args) && !o.directory then -- skipping directory argument
      listArgs o env args false (if isFirstdir then some dot else firstdir) lsArgs w
    else listArgs o env args false firstdir (lsArgs ++ [arg]) w

def runLs (env : ListEnv δ) : Bool := env.pipe && env.fork && env.closePipe

def cleanLs (env : ListEnv δ) : Bool := env.closeLs && env.waitpid

/-- The name of a directory, with a slash after it. -/
def withSlash (dir : CString) : CString := if dir.getLast? = some slash then dir else dir ++ [slash]

/-- The names that `ls` prints, each with the directory it is in. -/
def lsEntries : CString → List LsLine → List (CString × CString)
  | _, [] => []
  | _, .directory name :: lines => lsEntries (withSlash name) lines
  | dir, .entry name :: lines => (dir, name) :: lsEntries dir lines

/-- What `process_ls_output` reads. -/
def processLsOutput (env : ListEnv δ) (firstdir : Option CString) : List (CString × CString) :=
  if !env.fdopen then []
  else match firstdir with
    | none => lsEntries [] env.lines
    | some dir => lsEntries (if dir ≠ dot ∧ env.firstdirIsDirectory then withSlash dir else []) env.lines

/-- Whether `process_ls_output`, `clean_ls` and `WIFEXITED` are all true. -/
def lsEnded (env : ListEnv δ) : Bool := env.fdopen && !env.ferror && cleanLs env && env.exited

/-- What `list_files` returns and leaves, and the arguments that its child executes `ls` with, if it has
one. -/
structure ListResult (φ δ : Type) where
  result : Bool
  dirs : WorkDir δ
  session : Session φ
  child : Option (List CString) := none

/-- `list_files` up to where `ls` is run. -/
def prepareLs (o : LsOptions) (env : ListEnv δ) (args : List CString) (w : WorkDir δ) :
    WorkDir δ × Option (Option CString × List CString) :=
  listArgs o env args (!o.directory) (if o.directory then some dot else args.head?)
    ([o.program, quotingStyleC] ++ o.options ++ [[dash, dash]]) { w with workDirectory := dot }

def listFiles (o : LsOptions) (env : ListEnv δ) (args : List CString) (w : WorkDir δ) (s : Session φ) :
    ListResult φ δ :=
  match prepareLs o env args w with
  | (w, none) => { result := false, dirs := w, session := s }
  | (w, some (firstdir, lsArgs)) =>
    let child := if env.pipe && env.fork then some lsArgs else none
    if !runLs env then { result := false, dirs := { w with oldDir := .none }, session := s, child := child }
    else match cwdFromWorkDirectory env w with
      | (false, w) => { result := false, dirs := w, session := s, child := child }
      | (true, w) =>
        { result := lsEnded env
          dirs := w
          session := s.listFiles (some (processLsOutput env firstdir))
          child := child }

theorem listFiles_session (o : LsOptions) (env : ListEnv δ) (args : List CString) (w : WorkDir δ)
    (s : Session φ) : ∃ ls, (listFiles o env args w s).session = s.listFiles ls := by
  unfold listFiles
  split
  · exact ⟨none, rfl⟩
  · dsimp only
    split
    · exact ⟨none, rfl⟩
    · split
      · exact ⟨none, rfl⟩
      · exact ⟨some _, rfl⟩

/-! ### The directories of a call -/

/-- The arguments are one directory, which is listed and not named. -/
def entersDirectory (o : LsOptions) (env : ListEnv δ) (args : List CString) : Bool :=
  !o.directory && args.length == 1 && env.isDirectory args

/-- The directory that the new names are relative to. -/
def directoryListed (o : LsOptions) (env : ListEnv δ) (args : List CString) : CString :=
  if entersDirectory o env args then args.headD dot else dot

def canEnter (o : LsOptions) (env : ListEnv δ) (args : List CString) : Bool :=
  directoryListed o env args == dot || (env.openDot && env.chdir.isSome)

/-- The directory in which `ls` is run. -/
def lsCwd (o : LsOptions) (env : ListEnv δ) (args : List CString) (w : WorkDir δ) : δ :=
  if directoryListed o env args = dot then w.cwd else env.chdir.getD w.cwd

/-- `old_dir` when `ls` is run. -/
def lsOldDir (o : LsOptions) (env : ListEnv δ) (args : List CString) (w : WorkDir δ) : OldDir δ :=
  if directoryListed o env args = dot then if entersDirectory o env args then .none else w.oldDir
  else .opened w.cwd

/-- The directory that the call gets back to. -/
def cwdBack (o : LsOptions) (env : ListEnv δ) (args : List CString) (w : WorkDir δ) : Option δ :=
  match lsOldDir o env args w with
  | .none => some w.cwd
  | old => old.fchdir env

/-- The line is not of a name other than "." and "..". -/
def LsLine.isPassed : LsLine → Bool
  | .directory _ => true
  | .entry name => name == dot || name == [46, 46]

/-- There is no name in what `ls` prints, or it cannot be read. -/
def listsNothing (env : ListEnv δ) : Bool := !env.fdopen || env.lines.all LsLine.isPassed

variable {o : LsOptions} {env : ListEnv δ} {args : List CString} {w : WorkDir δ} {s : Session φ}

theorem listArgs_rest (firstdir : Option CString) (lsArgs : List CString) :
    ∃ x, listArgs o env args false firstdir lsArgs w = (w, some x) := by
  induction args generalizing firstdir lsArgs with
  | nil => exact ⟨_, rfl⟩
  | cons arg args ih =>
    unfold listArgs
    simp only [Bool.false_and, Bool.false_eq_true, if_false]
    split
    · exact ih _ _
    · exact ih _ _

theorem listArgs_stays (h : entersDirectory o env args = false) (firstdir : Option CString)
    (lsArgs : List CString) : ∃ x, listArgs o env args (!o.directory) firstdir lsArgs w = (w, some x) := by
  cases args with
  | nil => exact ⟨_, rfl⟩
  | cons arg args =>
    unfold listArgs
    split
    · rename_i hone
      have hdir : env.isDirectory (arg :: args) = false := by
        simp_all [entersDirectory]
      rw [hdir]
      exact listArgs_rest _ _
    · split
      · exact listArgs_rest _ _
      · exact listArgs_rest _ _

theorem listArgs_enters (h : entersDirectory o env args = true) (firstdir : Option CString)
    (lsArgs : List CString) :
    listArgs o env args (!o.directory) firstdir lsArgs { w with workDirectory := dot } =
      let entered := cwdToWorkDirectory env { w with workDirectory := directoryListed o env args }
      if entered.1 then (entered.2, some (some dot, lsArgs ++ [dot]))
      else ({ entered.2 with workDirectory := dot }, none) := by
  obtain ⟨⟨hdir, hone⟩, his⟩ : (o.directory = false ∧ args.length = 1) ∧ env.isDirectory args = true := by
    simpa [entersDirectory] using h
  obtain ⟨arg, rfl⟩ := List.length_eq_one_iff.mp hone
  rw [directoryListed, if_pos h]
  simp only [listArgs, hdir, his, Bool.not_false, List.isEmpty_nil, Bool.and_self, if_true, List.headD_cons]
  by_cases hto : (cwdToWorkDirectory env { w with workDirectory := arg }).1 = true
  · simp only [hto, Bool.not_true, if_true, Bool.false_eq_true, if_false]
  · simp only [hto, Bool.not_false, if_true, Bool.false_eq_true, if_false]

theorem prepareLs_canEnter (h : canEnter o env args = true) :
    ∃ x, prepareLs o env args w =
      (⟨directoryListed o env args, lsOldDir o env args w, lsCwd o env args w⟩, some x) := by
  cases hent : entersDirectory o env args with
  | false =>
    have hdot : directoryListed o env args = dot := by simp [directoryListed, hent]
    rw [hdot, lsOldDir, lsCwd, hdot, if_pos rfl, if_pos rfl, hent]
    exact listArgs_stays hent _ _
  | true =>
    rw [prepareLs, listArgs_enters hent]
    have hto : cwdToWorkDirectory env ⟨directoryListed o env args, w.oldDir, w.cwd⟩ =
        (true, ⟨directoryListed o env args, lsOldDir o env args w, lsCwd o env args w⟩) := by
      by_cases hdot : directoryListed o env args = dot
      · simp [cwdToWorkDirectory, lsOldDir, lsCwd, hdot, hent]
      · obtain ⟨hopen, hchdir⟩ : env.openDot = true ∧ env.chdir.isSome = true := by
          simpa [canEnter, hdot] using h
        obtain ⟨dir, hdir⟩ := Option.isSome_iff_exists.mp hchdir
        simp [cwdToWorkDirectory, lsOldDir, lsCwd, hdot, hopen, hdir]
    rw [hto]
    exact ⟨_, rfl⟩

theorem prepareLs_cannotEnter (h : canEnter o env args = false) :
    ∃ old, prepareLs o env args w = (⟨dot, old, w.cwd⟩, none) := by
  obtain ⟨hdot, hchdir⟩ : directoryListed o env args ≠ dot ∧ (env.openDot = true → env.chdir = none) := by
    simpa [canEnter] using h
  have hent : entersDirectory o env args = true := by
    by_contra hent
    exact hdot (by simp [directoryListed, hent])
  rw [prepareLs, listArgs_enters hent]
  cases hopen : env.openDot with
  | false => exact ⟨.none, by simp [cwdToWorkDirectory, hdot, hopen]⟩
  | true => exact ⟨.closed, by simp [cwdToWorkDirectory, hdot, hopen, hchdir hopen]⟩

theorem cwdFromWorkDirectory_eq :
    cwdFromWorkDirectory env ⟨directoryListed o env args, lsOldDir o env args w, lsCwd o env args w⟩ =
      match cwdBack o env args w with
      | some cwd => (true, ⟨directoryListed o env args, .none, cwd⟩)
      | none => (false, ⟨directoryListed o env args, .closed, lsCwd o env args w⟩) := by
  unfold cwdFromWorkDirectory cwdBack
  cases hold : lsOldDir o env args w with
  | none =>
    have hdot : directoryListed o env args = dot := by
      by_contra hdot
      simp [lsOldDir, hdot] at hold
    simp [lsCwd, hdot]
  | opened dir => cases h : (OldDir.opened dir).fchdir env <;> simp [h]
  | closed => cases h : OldDir.closed.fchdir env <;> simp [h]

theorem listFiles_cannotEnter (h : canEnter o env args = false) :
    ∃ old, listFiles o env args w s = { result := false, dirs := ⟨dot, old, w.cwd⟩, session := s } := by
  obtain ⟨old, hold⟩ := prepareLs_cannotEnter (w := w) h
  exact ⟨old, by rw [listFiles, hold]⟩

theorem listFiles_stuck (h : canEnter o env args = true)
    (hstuck : runLs env = false ∨ cwdBack o env args w = none) :
    ∃ old child, listFiles o env args w s =
      { result := false
        dirs := ⟨directoryListed o env args, old, lsCwd o env args w⟩
        session := s
        child := child } := by
  obtain ⟨last, hlast⟩ := prepareLs_canEnter (w := w) h
  rw [listFiles, hlast]
  cases hrun : runLs env with
  | false => exact ⟨.none, _, rfl⟩
  | true =>
    have hback := hstuck.resolve_left (by rw [hrun]; decide)
    dsimp only
    rw [cwdFromWorkDirectory_eq, hback]
    exact ⟨.closed, _, rfl⟩

theorem listFiles_read (h : canEnter o env args = true) (hrun : runLs env = true) {cwd : δ}
    (hback : cwdBack o env args w = some cwd) :
    ∃ firstdir child, listFiles o env args w s =
      { result := lsEnded env
        dirs := ⟨directoryListed o env args, .none, cwd⟩
        session := s.listFiles (some (processLsOutput env firstdir))
        child := child } := by
  obtain ⟨last, hlast⟩ := prepareLs_canEnter (w := w) h
  rw [listFiles, hlast, hrun]
  dsimp only
  rw [cwdFromWorkDirectory_eq, hback]
  exact ⟨last.1, _, rfl⟩

theorem listFiles_back (h : (listFiles o env args w s).result = true) (hold : w.oldDir = .none) :
    (listFiles o env args w s).dirs = ⟨directoryListed o env args, .none, w.cwd⟩ := by
  cases henter : canEnter o env args with
  | false =>
    obtain ⟨old, hr⟩ := listFiles_cannotEnter (w := w) (s := s) henter
    rw [hr] at h
    cases h
  | true =>
    by_cases hstuck : runLs env = false ∨ cwdBack o env args w = none
    · obtain ⟨old, child, hr⟩ := listFiles_stuck (s := s) henter hstuck
      rw [hr] at h
      cases h
    · obtain ⟨hrun, hback⟩ : runLs env = true ∧ cwdBack o env args w ≠ none := by simpa using hstuck
      obtain ⟨cwd, hback⟩ := Option.ne_none_iff_exists'.mp hback
      obtain ⟨firstdir, child, hr⟩ := listFiles_read (s := s) henter hrun hback
      have hcwd : cwd = w.cwd := by
        unfold cwdBack lsOldDir at hback
        split at hback
        · exact (Option.some.inj hback).symm
        · rename_i old hne
          split at hback <;> simp_all [OldDir.fchdir]
      rw [hr, hcwd]

/-! ### When a failing call leaves the directories alone -/

theorem loadFiles_nil_iff (entries : List (CString × CString)) (h : Heap) :
    (loadFiles entries Table.empty h).2 = [] ↔ ∀ e ∈ entries, e.2 = dot ∨ e.2 = [46, 46] := by
  induction entries generalizing h with
  | nil => simp [loadFiles]
  | cons entry rest ih =>
    obtain ⟨dir, name⟩ := entry
    rw [loadFiles, List.forall_mem_cons]
    split
    · rename_i hdots
      exact (ih h).trans (iff_and_self.mpr fun _ => hdots)
    · rename_i hdots
      simp [Table.contains, Table.empty, dot] at hdots ⊢
      exact fun h => absurd h (by simpa using hdots)

theorem lsEntries_passed (dir : CString) (lines : List LsLine) :
    (∀ e ∈ lsEntries dir lines, e.2 = dot ∨ e.2 = [46, 46]) ↔ lines.all LsLine.isPassed = true := by
  induction lines generalizing dir with
  | nil => exact ⟨fun _ => rfl, fun _ e he => absurd he List.not_mem_nil⟩
  | cons line lines ih =>
    rw [List.all_cons, Bool.and_eq_true]
    cases line with
    | directory name =>
      rw [lsEntries, ih]
      simp [LsLine.isPassed]
    | entry name =>
      rw [lsEntries, List.forall_mem_cons, ih]
      simp [LsLine.isPassed]

theorem workFiles_listFiles_nil (firstdir : Option CString) :
    (s.listFiles (some (processLsOutput env firstdir))).workFiles = [] ↔ listsNothing env = true := by
  refine (loadFiles_nil_iff _ _).trans ?_
  unfold processLsOutput listsNothing
  cases env.fdopen with
  | false => simp
  | true => cases firstdir <;> exact lsEntries_passed _ _

/-- The new list is the old one only if both are empty. -/
theorem workFiles_listFiles_eq (hfresh : ∀ t ∈ s.workFiles, t < s.heap.fresh) (firstdir : Option CString) :
    (s.listFiles (some (processLsOutput env firstdir))).workFiles = s.workFiles ↔
      s.workFiles = [] ∧ listsNothing env = true := by
  rw [← workFiles_listFiles_nil (s := s) firstdir]
  constructor
  · intro heq
    have hnil : s.workFiles = [] := by
      refine List.eq_nil_iff_forall_not_mem.mpr fun t ht => ?_
      rw [← heq] at ht
      have hnew := (loadFiles_loaded (processLsOutput env firstdir) Table.empty
        (freeFiles s.workFiles s.heap)).bounds t ht
      rw [(linksOnly_freeFiles s.workFiles s.heap).fresh] at hnew
      exact absurd (hfresh t (heq ▸ ht)) (Nat.not_lt.mpr hnew.1)
    exact ⟨hnil, heq.trans hnil⟩
  · rintro ⟨hnil, hnew⟩
    rw [hnew, hnil]

/-- If the call fails and the list and the plan are those from before, then so are `work_directory` and the
current directory. -/
def KeepsDirectories (o : LsOptions) (env : ListEnv δ) (args : List CString) (w : WorkDir δ) (s : Session φ) :
    Prop :=
  let r := listFiles o env args w s
  r.result = false → r.session.workFiles = s.workFiles → r.session.plan = s.plan →
    r.dirs.workDirectory = w.workDirectory ∧ r.dirs.cwd = w.cwd

/-- What has to be as it was for each way in which `list_files` can fail. -/
structure FailsInPlace (o : LsOptions) (env : ListEnv δ) (args : List CString) (w : WorkDir δ)
    (s : Session φ) : Prop where
  /-- The directory given cannot be entered. -/
  enter : canEnter o env args = false → w.workDirectory = dot
  /-- `ls` is not run, or the way back fails. -/
  stuck : canEnter o env args = true → runLs env = false ∨ cwdBack o env args w = none →
    w.workDirectory = directoryListed o env args ∧ w.cwd = lsCwd o env args w
  /-- The list was empty and what is read is. -/
  read : canEnter o env args = true → runLs env = true → lsEnded env = false → listsNothing env = true →
    s.workFiles = [] → s.plan = none → ∀ cwd, cwdBack o env args w = some cwd →
    w.workDirectory = directoryListed o env args ∧ w.cwd = cwd

/-- The hypothesis is `ListedOnce.lt`. -/
theorem listFiles_keeps_iff (o : LsOptions) (env : ListEnv δ) (args : List CString) (w : WorkDir δ)
    (s : Session φ) (hfresh : ∀ t ∈ s.workFiles, t < s.heap.fresh) :
    KeepsDirectories o env args w s ↔ FailsInPlace o env args w s := by
  unfold KeepsDirectories
  dsimp only
  cases henter : canEnter o env args with
  | false =>
    obtain ⟨old, hr⟩ := listFiles_cannotEnter (w := w) (s := s) henter
    rw [hr]
    constructor
    · intro hkeeps
      have hdirs := hkeeps rfl rfl rfl
      exact ⟨fun _ => hdirs.1.symm, by simp [henter], by simp [henter]⟩
    · intro hfails _ _ _
      exact ⟨(hfails.enter henter).symm, rfl⟩
  | true =>
    by_cases hstuck : runLs env = false ∨ cwdBack o env args w = none
    · obtain ⟨old, child, hr⟩ := listFiles_stuck (s := s) henter hstuck
      rw [hr]
      constructor
      · intro hkeeps
        have hdirs := hkeeps rfl rfl rfl
        refine ⟨by simp [henter], fun _ _ => ⟨hdirs.1.symm, hdirs.2.symm⟩, ?_⟩
        intro _ hrun _ _ _ _ cwd hback
        simp [hrun, hback] at hstuck
      · intro hfails _ _ _
        have hdirs := hfails.stuck henter hstuck
        exact ⟨hdirs.1.symm, hdirs.2.symm⟩
    · obtain ⟨hrun, hback⟩ : runLs env = true ∧ cwdBack o env args w ≠ none := by simpa using hstuck
      obtain ⟨cwd, hback⟩ := Option.ne_none_iff_exists'.mp hback
      obtain ⟨firstdir, child, hr⟩ := listFiles_read (s := s) henter hrun hback
      rw [hr]
      dsimp only
      rw [workFiles_listFiles_eq hfresh]
      constructor
      · intro hkeeps
        refine ⟨by simp [henter], fun _ h => absurd h hstuck, ?_⟩
        intro _ _ hended hnothing hfiles hplan cwd' hback'
        obtain rfl := Option.some.inj (hback.symm.trans hback')
        have hdirs := hkeeps hended ⟨hfiles, hnothing⟩ hplan.symm
        exact ⟨hdirs.1.symm, hdirs.2.symm⟩
      · rintro hfails hended ⟨hfiles, hnothing⟩ hplan
        have hdirs := hfails.read henter hrun hended hnothing hfiles hplan.symm cwd hback
        exact ⟨hdirs.1.symm, hdirs.2.symm⟩

end

/-- `list a` in `/`, then `list d` where `d` cannot be entered. -/
theorem listFiles_keeps_iff_dot :
    let first := listFiles (φ := Nat) ⟨[], [], false⟩
      { isDirectory := fun _ => false, chdir := none, lines := [.entry [97]] } [[97]] ⟨dot, .none, [slash]⟩
      { fs := Table.empty }
    KeepsDirectories ⟨[], [], false⟩ { isDirectory := fun _ => true, chdir := none } [[100]] first.dirs
      first.session :=
  (listFiles_keeps_iff _ _ _ _ _ (by decide)).mpr
    ⟨fun _ => rfl, fun h => absurd h (by decide), fun h => absurd h (by decide)⟩

/-- `list d` in `/`, then `list e` where `e` cannot be entered: `work_directory` is "." and no longer `d`. -/
theorem listFiles_forgets_directory :
    let first := listFiles (φ := Nat) ⟨[], [], false⟩
      { isDirectory := fun _ => true, chdir := some [slash, 100], lines := [.entry [97]] } [[100]]
      ⟨dot, .none, [slash]⟩ { fs := Table.empty }
    ¬ KeepsDirectories ⟨[], [], false⟩ { isDirectory := fun _ => true, chdir := none } [[101]] first.dirs
      first.session := by
  intro first hkeeps
  have hdirs := hkeeps rfl rfl rfl
  exact absurd hdirs.1 (by decide)

end Renameutils
