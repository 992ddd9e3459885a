import Renameutils.Apply
import Renameutils.EditFormats
import Renameutils.Lib.Runs

/-!
# The session (`interactive.c`, `edit.c`, `list.c`, `variables.c`)

`step` is one command of the command mode. What the environment decides (what `ls` prints, what the
user leaves in the edit file, which system calls fail, what becomes of each launched command) is part of
the event. A step is `none` when the reading of the edit file is undefined or when the fuel of `make_plan`
runs out.
-/

namespace Renameutils

/-- What is fixed when the program starts. -/
structure Setup where
  program : Program
  isprint : UInt8 → Bool

/-- What the edit file was written for when it was last written. -/
structure EditFile where
  format : EditFormat
  options : FormatOptions
  realWidth : Nat
  files : List SpecId
  text : CString
deriving DecidableEq, Repr

/-- The globals of the program, and the files. `indicatorsLent` says of a format that `set options` gave it an
indicator: the format then points into the words of that command, which are freed after it. The text that stands
in `options` need not be what the format reads there. -/
structure Session (φ : Type) where
  heap : Heap := .empty
  workFiles : List SpecId := []
  plan : Option ApplyPlan := none
  fs : FileSys φ
  simulate : Bool := false
  format : EditFormat := .dualColumn
  options : FormatOptions := {}
  indicatorsLent : EditFormat → Bool := fun _ => false
  realWidth : Nat := 0
  acceptReedit : Bool := false
  editFileList : List SpecId := []
  editFile : Option EditFile := none

/-- What happens while `edit_files` runs: whether the edit file can be opened and closed for writing,
whether the editor succeeds, whether the file can be opened for reading, and what it then holds. -/
structure EditEnv where
  openWrite : Bool := true
  closeWrite : Bool := true
  editor : Bool := true
  openRead : Bool := true
  file : TextFile
  fuel : Nat

/-- The commands. `list none` fails before anything is changed; `list (some entries)` reads the entries,
each with the directory that it is listed in. `importFile none` cannot open the file;
`importFile (some (lines, ferror))` reads the lines. The options of `setOptions` are those that
`parse_options` leaves; `indicator` says whether an indicator is given. -/
inductive Event where
  | list (ls : Option (List (CString × CString)))
  | importFile (file : Option (List CString × Bool))
  | edit (all : Bool) (env : EditEnv)
  | plan
  | apply (env : ApplyEnv)
  | setFormat (format : EditFormat)
  | setOptions (options : FormatOptions) (indicator : Bool)
  | setSimulate (simulate : Bool)

/-- The commands that choose, edit and apply renames. -/
def Event.isRenaming : Event → Bool
  | list _ | edit _ _ | plan | apply _ => true
  | _ => false

/-- The new files of `process_ls_output` and `import_command`, each once. -/
def loadFiles : List (CString × CString) → Table CString SpecId → Heap → Heap × List SpecId
  | [], _, h => (h, [])
  | (dir, name) :: rest, mapFiles, h =>
    if name = [46] ∨ name = [46, 46] then loadFiles rest mapFiles h
    else
      let oldName := dir ++ name
      let spec := h.fresh
      let h := h.newFileSpec ⟨oldName, oldName, none, none, .unchecked⟩
      if mapFiles.contains oldName then loadFiles rest mapFiles h
      else
        let (h, files) := loadFiles rest (mapFiles.put oldName spec) h
        (h, spec :: files)

def freeFiles (files : List SpecId) (h : Heap) : Heap := files.foldl Heap.freeFileSpec h

/-- The options of the format that are in use. -/
def FormatOptions.parsed (o new : FormatOptions) : EditFormat → FormatOptions
  | .destinationOnly => { o with destinationOnly := new.destinationOnly }
  | .singleColumn => { o with singleColumn := new.singleColumn }
  | .dualColumn => { o with dualColumn := new.dualColumn }

/-- A step: the session after it, the commands that it launched, the session in which it called
`format->input` and the plan that it made with `make_plan`, if it did. -/
structure StepResult (φ : Type) where
  session : Session φ
  launched : List (Launch φ) := []
  read : Option (Session φ) := none
  made : Option PlanState := none

/-- What `edit_files` gives: the session after it, its result, and the session in which it called
`format->input`, if it did. -/
structure EditResult (φ : Type) where
  session : Session φ
  result : Bool
  read : Option (Session φ)

namespace Session
variable {φ : Type}

def listFiles (ls : Option (List (CString × CString))) (s : Session φ) : Session φ :=
  match ls with
  | none => s
  | some entries =>
    let (h, files) := loadFiles entries Table.empty (freeFiles s.workFiles s.heap)
    { s with heap := h, workFiles := files, editFileList := [], plan := none }

def importCommand (file : Option (List CString × Bool)) (s : Session φ) : Session φ :=
  match file with
  | none => s
  | some (lines, ferror) =>
    let (h, files) := loadFiles (lines.map ([], ·)) Table.empty s.heap
    if ferror then { s with heap := freeFiles files h }
    else { s with heap := freeFiles s.workFiles h, workFiles := files }

/-! ### `edit_files` -/

/-- What files we want to display to user. -/
def toEdit (s : Session φ) (all : Bool) : List SpecId :=
  if all then s.workFiles else (s.plan.map ApplyPlan.error).getD []

/-- Choose the specs to edit and write the edit file, unless the last edit is to be done again. -/
def prepareEdit (setup : Setup) (all force : Bool) (env : EditEnv) (s : Session φ) :
    Option (Session φ × Bool) :=
  if s.acceptReedit && !force then some (s, true)
  else
    let files := s.toEdit all
    let s := { s with acceptReedit := false, editFileList := files }
    if files = [] then some (s, false)
    else if !env.openWrite then some ({ s with editFileList := [] }, false)
    else do
      let (text, realWidth) ← s.format.output setup.isprint s.options s.heap files s.realWidth
      let s := { s with realWidth := realWidth, editFile := some ⟨s.format, s.options, realWidth, files, text⟩ }
      if !env.closeWrite then return ({ s with editFileList := [] }, false)
      else return ({ s with acceptReedit := true }, true)

def editSpecs (s : Session φ) : EditSpecs where
  oldName := s.heap.oldName
  newName t := some (s.heap.newName t)
  status := s.heap.status

/-- The new names after `format->input`. A `NULL` is an empty name here. -/
def setNewNames (s : Session φ) (specs : EditSpecs) : Session φ :=
  { s with heap := { s.heap with newName := fun t => (specs.newName t).getD [] } }

/-- Reset status of all files. -/
def resetStatus (s : Session φ) : Session φ :=
  { s with
    heap := s.editFileList.foldl (fun h t => h.setStatus t .unchecked) s.heap
    acceptReedit := false
    editFileList := [] }

/-- Start the editor and read the file. -/
def readEdit (env : EditEnv) (s : Session φ) : Option (EditResult φ) :=
  if !env.editor || !env.openRead then some ⟨s, false, none⟩
  else match s.format.input s.options s.realWidth s.editFileList env.file s.editSpecs with
    | .undefined => none
    | .returned false specs => some ⟨s.setNewNames specs, false, some s⟩
    | .returned true specs => some ⟨(s.setNewNames specs).resetStatus, true, some s⟩

def editFiles (setup : Setup) (all force : Bool) (env : EditEnv) (s : Session φ) :
    Option (EditResult φ) := do
  let (s, ready) ← s.prepareEdit setup all force env
  if ready then s.readEdit env else return ⟨s, false, none⟩

/-! ### Commands -/

def editCommand (setup : Setup) (all : Bool) (env : EditEnv) (s : Session φ) : Option (StepResult φ) :=
  if s.workFiles = [] then some { session := s }
  else do
    let r ← s.editFiles setup all false env
    if r.result then
      let s := r.session
      let st ← makePlan env.fuel setup.program s.fs.contains s.workFiles s.heap
      return { session := { s with heap := st.heap, plan := some st.plan }, read := r.read, made := some st }
    else return { session := r.session, read := r.read }

def applyCommand (setup : Setup) (env : ApplyEnv) (s : Session φ) : StepResult φ :=
  match s.plan with
  | none => { session := s }
  | some plan =>
    let r := applyPlan setup.program s.simulate env plan ⟨s.heap, s.workFiles, s.fs⟩
    { session :=
        { s with heap := r.state.heap, workFiles := r.state.workFiles, fs := r.state.fs, plan := some r.plan }
      launched := r.launched }

/-- One command. -/
def step (setup : Setup) (s : Session φ) : Event → Option (StepResult φ)
  | .list ls => some { session := s.listFiles ls }
  | .importFile file => some { session := s.importCommand file }
  | .edit all env => s.editCommand setup all env
  | .plan => some { session := s } -- `display_plan` changes nothing
  | .apply env => some (s.applyCommand setup env)
  | .setFormat format => some { session := { s with format := format } }
  | .setOptions options indicator => some { session := { s with
      options := s.options.parsed options s.format
      indicatorsLent := Function.update s.indicatorsLent s.format indicator } }
  | .setSimulate simulate => some { session := { s with simulate := simulate } }

/-- The session after a command. -/
def next (setup : Setup) (s : Session φ) (e : Event) : Option (Session φ) :=
  (s.step setup e).map StepResult.session

end Session

end Renameutils
