import Renameutils.FileSpec
import Renameutils.Lib.Table

/-!
# Making the plan (`plan.c`)

`makePlan` is `make_plan`, its passes are the static functions of `plan.c` under their names.
`fileExists name` stands for `file_exists(cat_files(work_directory, name))`. The loops of the
source that have no bound of their own take `fuel`, and `none` means that it ran out: the
`do`-`while` of `topologic_sort`, the walks of `cross_reference_resolve` along the names and along
`next_spec`, and its search for a temporary name.
-/

namespace Renameutils

/-- What `strcmp(program, ..)` tells apart. -/
inductive Program where
  | qmv
  | qcp
  | other
deriving DecidableEq, Repr

/-- `struct _ApplyPlan`. `freeSpec` is the field that the source has commented out: the specs that
`cross_reference_resolve` created. No function reads it. -/
structure ApplyPlan where
  ok : List SpecId := []
  error : List SpecId := []
  noChange : List SpecId := []
  freeSpec : List SpecId := []
deriving DecidableEq, Repr

structure PlanState where
  heap : Heap
  plan : ApplyPlan

namespace PlanState

/-- `spec->status = status; llist_add(plan->ok, spec);` -/
def addOk (st : PlanState) (spec : SpecId) (status : FileSpecStatus) : PlanState where
  heap := st.heap.setStatus spec status
  plan := { st.plan with ok := st.plan.ok ++ [spec] }

/-- `spec->status = status; llist_add(plan->error, spec);` -/
def addError (st : PlanState) (spec : SpecId) (status : FileSpecStatus) : PlanState where
  heap := st.heap.setStatus spec status
  plan := { st.plan with error := st.plan.error ++ [spec] }

/-- `spec->status = status; llist_add(plan->no_change, spec);` -/
def addNoChange (st : PlanState) (spec : SpecId) (status : FileSpecStatus) : PlanState where
  heap := st.heap.setStatus spec status
  plan := { st.plan with noChange := st.plan.noChange ++ [spec] }

/-- `llist_add_first(plan->ok, spec)`. -/
def pushOk (st : PlanState) (spec : SpecId) : PlanState :=
  { st with plan := { st.plan with ok := spec :: st.plan.ok } }

/-- `new_file_spec` for the plan. -/
def create (st : PlanState) (f : FileSpec) : PlanState where
  heap := st.heap.newFileSpec f
  plan := { st.plan with freeSpec := st.heap.fresh :: st.plan.freeSpec }

end PlanState

/-- A pass over `renames` that gives every unchecked spec with `p` to `add`. -/
def statusScan (p : Heap → SpecId → Bool) (add : PlanState → SpecId → PlanState) :
    List SpecId → PlanState → PlanState
  | [], st => st
  | spec :: rest, st =>
    if st.heap.status spec = .unchecked ∧ p st.heap spec then statusScan p add rest (add st spec)
    else statusScan p add rest st

/-- The specs that an earlier plan dealt with keep their statuses. -/
def previousScan : List SpecId → PlanState → PlanState
  | [], st => st
  | spec :: rest, st =>
    let plan := st.plan
    let plan := match st.heap.status spec with
      | .apply | .circular => { plan with ok := plan.ok ++ [spec] }
      | .noChange => { plan with noChange := plan.noChange ++ [spec] }
      | .unchecked => plan
      | _ => { plan with error := plan.error ++ [spec] }
    previousScan rest { st with plan := plan }

def duplicateLoop : List SpecId → Table CString SpecId → PlanState → PlanState
  | [], _, st => st
  | spec :: rest, map, st =>
    if st.heap.status spec = .unchecked then
      let map' := map.put (st.heap.newName spec) spec
      -- `hmap_put` returns the value that it replaced
      match map (st.heap.newName spec) with
      | none => duplicateLoop rest map' st
      | some spec2 =>
        let st := if st.heap.status spec2 = .unchecked then st.addError spec2 .duplicate else st
        duplicateLoop rest map' (st.addError spec .duplicate)
    else duplicateLoop rest map st

def duplicateScan (renames : List SpecId) (st : PlanState) : PlanState :=
  duplicateLoop renames Table.empty st

def oldMissingScan (fileExists : CString → Bool) : List SpecId → PlanState → PlanState :=
  statusScan (fun h spec => !fileExists (h.oldName spec)) (·.addError · .oldMissing)

def noChangeScan : List SpecId → PlanState → PlanState :=
  statusScan (fun h spec => h.oldName spec = h.newName spec) (·.addNoChange · .noChange)

def applyUnchecked : List SpecId → PlanState → PlanState :=
  statusScan (fun _ _ => true) (·.addOk · .apply)

/-- A loop that puts the specs with `p` into a map under their `key`. -/
def collect (p : FileSpecStatus → Bool) (key : SpecId → CString) (status : SpecId → FileSpecStatus) :
    List SpecId → Table CString SpecId → Table CString SpecId
  | [], map => map
  | spec :: rest, map =>
    collect p key status rest (if p (status spec) then map.put (key spec) spec else map)

/-- The old names of the unchecked specs. -/
def oldNameMap (renames : List SpecId) (h : Heap) : Table CString SpecId :=
  collect (· = .unchecked) h.oldName h.status renames Table.empty

def newExistsScan (fileExists : CString → Bool) (renames : List SpecId) (st : PlanState) : PlanState :=
  let map := oldNameMap renames st.heap
  let st := statusScan (fun h spec => map.contains (h.newName spec)) (·.addError · .newExists) renames st
  statusScan (fun h spec => fileExists (h.newName spec)) (·.addError · .newExists) renames st

/-! ### `topologic_sort` -/

structure TopologicState where
  available : Table CString SpecId
  st : PlanState

/-- Find all renames where destination file does not exist; the others are `pending`. -/
def topologicStart (fileExists : CString → Bool) :
    List SpecId → TopologicState → TopologicState × List SpecId
  | [], ts => (ts, [])
  | spec :: rest, ts =>
    if ts.st.heap.status spec = .unchecked then
      if !fileExists (ts.st.heap.newName spec) then
        topologicStart fileExists rest
          ⟨ts.available.put (ts.st.heap.oldName spec) spec, ts.st.addOk spec .apply⟩
      else
        let (ts, pending) := topologicStart fileExists rest ts
        (ts, spec :: pending)
    else topologicStart fileExists rest ts

/-- The step of `topologic_sort` that makes `spec` depend on `depend`. -/
def topologicStep (ts : TopologicState) (spec depend : SpecId) : TopologicState :=
  let h := (ts.st.heap.setPrev spec (some depend)).setNext depend (some spec)
  ⟨(ts.available.put (h.oldName spec) spec).remove (h.newName spec),
    PlanState.addOk ⟨h, ts.st.plan⟩ spec .apply⟩

/-- One pass over `pending`: the state after it, the specs that stay pending, and `changed`. -/
def topologicPass : List SpecId → TopologicState → TopologicState × List SpecId × Bool
  | [], ts => (ts, [], false)
  | spec :: rest, ts =>
    match ts.available (ts.st.heap.newName spec) with
    | some depend =>
      let (ts, pending, _) := topologicPass rest (topologicStep ts spec depend)
      (ts, pending, true)
    | none =>
      let (ts, pending, changed) := topologicPass rest ts
      (ts, spec :: pending, changed)

def topologicLoop : Nat → List SpecId → TopologicState → Option PlanState
  | 0, _, _ => none
  | fuel + 1, pending, ts =>
    match topologicPass pending ts with
    | (ts, pending, true) => topologicLoop fuel pending ts
    | (ts, _, false) => some ts.st

def topologicSort (fuel : Nat) (fileExists : CString → Bool) (renames : List SpecId)
    (st : PlanState) : Option PlanState :=
  let (ts, pending) := topologicStart fileExists renames ⟨Table.empty, st⟩
  topologicLoop fuel pending ts

/-! ### `cross_reference_resolve` -/

/-- The new names of the specs that are unchecked or to be applied. -/
def newNameMap (renames : List SpecId) (h : Heap) : Table CString SpecId :=
  collect (fun status => status = .unchecked ∨ status = .apply) h.newName h.status renames Table.empty

/-- The `for (;;)` that follows the renamings from `s1`. At its head `s2` and `prev_circular` are
the same spec, here `s2`. -/
def followRenamings (mapOld : Table CString SpecId) (s1 : SpecId) :
    Nat → SpecId → Heap → Option Heap
  | 0, _, _ => none
  | fuel + 1, s2, h =>
    match mapOld (h.newName s2) with
    | none => some (h.setNext s1 none)
    | some s2' =>
      if h.status s2' ≠ .unchecked then some (h.setNext s1 none)
      else if s2' = s1 then some (h.setNext s2 none)
      else followRenamings mapOld s1 fuel s2' (h.setNext s2 (some s2'))

/-- The search for a temporary name for the rename of `oldName`. -/
def findTmpName (fileExists : CString → Bool) (mapNew : Table CString SpecId) (oldName : CString) :
    Nat → Nat → Option CString
  | 0, _ => none
  | fuel + 1, tmpCount =>
    let tmpName := oldName.numbered tmpCount
    if fileExists tmpName || mapNew.contains tmpName then
      findTmpName fileExists mapNew oldName fuel (tmpCount + 1)
    else some tmpName

/-- Add and update status of the specs from `s2` on along `next_spec`. -/
def markCircular : Nat → Option SpecId → PlanState → Option PlanState
  | _, none, st => some st
  | 0, some _, _ => none
  | fuel + 1, some s2, st =>
    markCircular fuel (st.heap.nextSpec s2)
      (PlanState.pushOk { st with heap := st.heap.setStatus s2 .circular } s2)

/-- Update the `next_spec` and `prev_spec` fields along `plan->ok`, from `s2` up to `s1`. -/
def relink (s1 : SpecId) : SpecId → List SpecId → Heap → Heap
  | _, [], h => h
  | s2, spec :: rest, h =>
    let h := (h.setNext s2 (some spec)).setPrev spec (some s2)
    if spec = s1 then h else relink s1 spec rest h

/-- A new spec takes the place of `s1` in its circular rename-set. -/
def replaceMember (s1 : SpecId) (st : PlanState) : PlanState :=
  let h := st.heap
  let copy := h.fresh
  let st := (st.create ⟨h.oldName s1, h.newName s1, h.prevSpec s1, h.nextSpec s1, .circular⟩).pushOk copy
  { st with heap := ((st.heap.setStatus s1 .apply).setNext s1 none).setPrev s1 none }

/-- Add the extra required rename to `tmpName`, from which `copy` then moves. -/
def addExtraRename (copy : SpecId) (tmpName : CString) (st : PlanState) : PlanState :=
  let tmp := st.heap.fresh
  let st := (st.create ⟨st.heap.oldName copy, tmpName, none, none, .circular⟩).pushOk tmp
  let h := st.heap.setOldName copy tmpName
  { st with heap := (relink copy tmp st.plan.ok.tail h).setNext copy none }

/-- What `cross_reference_resolve` does with a circular rename-set that `s1` is in. -/
def resolveCircular (fuel : Nat) (tmpName : CString) (s1 : SpecId) (st : PlanState) :
    Option PlanState := do
  let copy := st.heap.fresh
  let st := replaceMember s1 st
  let st ← markCircular fuel (st.heap.nextSpec copy) st
  return addExtraRename copy tmpName st

def crossReferenceLoop (fuel : Nat) (fileExists : CString → Bool)
    (mapOld mapNew : Table CString SpecId) : List SpecId → PlanState → Option PlanState
  | [], st => some st
  | s1 :: rest, st =>
    if st.heap.status s1 ≠ .unchecked then
      crossReferenceLoop fuel fileExists mapOld mapNew rest st
    else do
      let h ← followRenamings mapOld s1 fuel s1 st.heap
      let st := { st with heap := h }
      if h.nextSpec s1 = none then
        crossReferenceLoop fuel fileExists mapOld mapNew rest (st.addError s1 .newExists)
      else
        let tmpName ← findTmpName fileExists mapNew (h.oldName s1) fuel 1
        let st ← resolveCircular fuel tmpName s1 st
        crossReferenceLoop fuel fileExists mapOld mapNew rest st

def crossReferenceResolve (fuel : Nat) (fileExists : CString → Bool) (renames : List SpecId)
    (st : PlanState) : Option PlanState :=
  crossReferenceLoop fuel fileExists (oldNameMap renames st.heap) (newNameMap renames st.heap)
    renames st

/-! ### `make_plan` -/

def makePlan (fuel : Nat) (program : Program) (fileExists : CString → Bool) (renames : List SpecId)
    (h : Heap) : Option PlanState := do
  let st := previousScan renames ⟨h, {}⟩
  let st := duplicateScan renames st
  let st := oldMissingScan fileExists renames st
  let st := noChangeScan renames st
  let st ← match program with
    | .qmv => do
      let st ← topologicSort fuel fileExists renames st
      crossReferenceResolve fuel fileExists renames st
    | .qcp => some (newExistsScan fileExists renames st)
    | .other => some st
  return applyUnchecked renames st

end Renameutils
