import Renameutils.Plan

/-!
# Applying the plan (`apply.c`)

The files are one flat table from names to files: distinct names are distinct files, and only the
launched commands change it. What the environment decides (whether the working directory can be
entered and left, what becomes of each command) is an argument of `applyPlan`.
-/

namespace Renameutils

/-- The file that each name has; `φ` are the files. -/
abbrev FileSys (φ : Type) := Table CString φ

/-- What becomes of a command: `fork` fails, or the command fails and changes nothing, or it does its
work. -/
inductive CommandResult where
  | notStarted
  | failed
  | done
deriving DecidableEq, Repr

/-- A command that was started: its arguments and the files at that moment. -/
structure Launch (φ : Type) where
  oldName : CString
  newName : CString
  fs : FileSys φ

/-- What `apply_plan` changes but for the plan. -/
structure ApplyState (φ : Type) where
  heap : Heap
  workFiles : List SpecId
  fs : FileSys φ

/-- `perform_command`: `mv -- old new` in qmv mode, `cp -- old new` in the others. A command whose
source does not exist fails. -/
def performCommand {φ : Type} (program : Program) (result : CommandResult) (oldName newName : CString)
    (fs : FileSys φ) : Bool × FileSys φ :=
  match result, fs oldName with
  | .done, some file =>
    (true, ((if program = .qmv then fs.remove oldName else fs)).put newName file)
  | _, _ => (false, fs)

/-- What the environment decides about one run of `apply_plan`: `outcome i` is for the `i`-th spec of
`plan->ok`. -/
structure ApplyEnv where
  cwdTo : Bool := true
  cwdFrom : Bool := true
  outcome : Nat → CommandResult

/-- The loop of `apply_plan`: the state after it, the specs that stay in `plan->ok`, `fail`, and the
commands that were started. -/
structure ApplyResult (φ : Type) where
  state : ApplyState φ
  kept : List SpecId
  fail : Bool
  launched : List (Launch φ)

namespace ApplyState
variable {φ : Type}

/-- `llist_remove(work_files, spec); free_file_spec(spec);` -/
def complete (w : ApplyState φ) (spec : SpecId) (fs : FileSys φ) : ApplyState φ where
  heap := w.heap.freeFileSpec spec
  workFiles := w.workFiles.erase spec
  fs := fs

end ApplyState

section
variable {φ : Type}

def applyLoop (program : Program) (simulate : Bool) :
    List SpecId → (Nat → CommandResult) → ApplyState φ → ApplyResult φ
  | [], _, w => ⟨w, [], false, []⟩
  | spec :: rest, outcome, w =>
    let next := fun i => outcome (i + 1)
    if (w.heap.status spec).isOk = false ∨ w.heap.prevSpec spec ≠ none then
      -- not to be applied, or it depends on a command that failed
      let r := applyLoop program simulate rest next w
      { r with kept := spec :: r.kept }
    else if simulate then
      applyLoop program simulate rest next (w.complete spec w.fs)
    else
      let oldName := w.heap.oldName spec
      let newName := w.heap.newName spec
      let launch := if outcome 0 = .notStarted then [] else [⟨oldName, newName, w.fs⟩]
      match performCommand program (outcome 0) oldName newName w.fs with
      | (true, fs) =>
        let r := applyLoop program simulate rest next (w.complete spec fs)
        { r with launched := launch ++ r.launched }
      | (false, fs) =>
        let r := applyLoop program simulate rest next { w with fs := fs }
        { r with kept := spec :: r.kept, fail := true, launched := launch ++ r.launched }

/-- A call of `apply_plan`: the state and the plan after it, what it returned, and the commands that it
started. -/
structure Applied (φ : Type) where
  state : ApplyState φ
  plan : ApplyPlan
  returned : Bool
  launched : List (Launch φ)

/-- `apply_plan`. -/
def applyPlan (program : Program) (simulate : Bool) (env : ApplyEnv) (plan : ApplyPlan)
    (w : ApplyState φ) : Applied φ :=
  if plan.ok = [] then ⟨w, plan, true, []⟩
  else if !env.cwdTo then ⟨w, plan, false, []⟩
  else
    let r := applyLoop program simulate plan.ok env.outcome w
    ⟨r.state, { plan with ok := r.kept }, env.cwdFrom && !r.fail, r.launched⟩

/-- One call of `apply_plan` after the other, with the commands that all of them started. -/
def applyRuns (program : Program) (simulate : Bool) :
    List ApplyEnv → ApplyPlan → ApplyState φ → Applied φ
  | [], plan, w => ⟨w, plan, true, []⟩
  | env :: envs, plan, w =>
    let r := applyPlan program simulate env plan w
    let r' := applyRuns program simulate envs r.plan r.state
    { r' with launched := r.launched ++ r'.launched }

end

end Renameutils
