import Renameutils.CString
import Mathlib.Logic.Function.Basic

/-!
# File specs

`FileSpec` and the memory that holds them (`qcmd.h`, `new_file_spec` and `free_file_spec` of
`list.c`). The memory keeps one map for each field, so that assigning one field leaves the others
as they are by definition. A spec is named by its `SpecId`, its address; addresses are not used
twice.
-/

namespace Renameutils

inductive FileSpecStatus where
  | unchecked
  | oldMissing
  | duplicate
  | noChange
  | newExists
  | apply
  | circular
deriving DecidableEq, Repr

namespace FileSpecStatus

/-- The statuses that `qcmd.h` marks `(error)`. -/
def isError : FileSpecStatus → Bool
  | oldMissing | duplicate | newExists => true
  | _ => false

/-- The statuses that `qcmd.h` marks `(ok)`. -/
def isOk : FileSpecStatus → Bool
  | apply | circular => true
  | _ => false

end FileSpecStatus

abbrev SpecId := Nat

/-- The fields of one `struct _FileSpec`. -/
structure FileSpec where
  oldName : CString
  newName : CString
  prevSpec : Option SpecId := none
  nextSpec : Option SpecId := none
  status : FileSpecStatus := .unchecked
deriving DecidableEq, Repr

/-- The file specs in memory, one map for each field. Specs from `fresh` on are not allocated. A
freed spec keeps its fields: nothing may read them again, and nothing here says that C reads the
same. -/
structure Heap where
  oldName : SpecId → CString
  newName : SpecId → CString
  prevSpec : SpecId → Option SpecId
  nextSpec : SpecId → Option SpecId
  status : SpecId → FileSpecStatus
  fresh : SpecId

namespace Heap

def empty : Heap where
  oldName _ := []
  newName _ := []
  prevSpec _ := none
  nextSpec _ := none
  status _ := .unchecked
  fresh := 0

def spec (h : Heap) (s : SpecId) : FileSpec :=
  ⟨h.oldName s, h.newName s, h.prevSpec s, h.nextSpec s, h.status s⟩

def setOldName (h : Heap) (s : SpecId) (name : CString) : Heap :=
  { h with oldName := Function.update h.oldName s name }

def setNewName (h : Heap) (s : SpecId) (name : CString) : Heap :=
  { h with newName := Function.update h.newName s name }

def setPrev (h : Heap) (s : SpecId) (p : Option SpecId) : Heap :=
  { h with prevSpec := Function.update h.prevSpec s p }

def setNext (h : Heap) (s : SpecId) (p : Option SpecId) : Heap :=
  { h with nextSpec := Function.update h.nextSpec s p }

def setStatus (h : Heap) (s : SpecId) (st : FileSpecStatus) : Heap :=
  { h with status := Function.update h.status s st }

/-- `new_file_spec` and the assignments to the fields of the new spec, which is `h.fresh`. -/
def newFileSpec (h : Heap) (f : FileSpec) : Heap where
  oldName := Function.update h.oldName h.fresh f.oldName
  newName := Function.update h.newName h.fresh f.newName
  prevSpec := Function.update h.prevSpec h.fresh f.prevSpec
  nextSpec := Function.update h.nextSpec h.fresh f.nextSpec
  status := Function.update h.status h.fresh f.status
  fresh := h.fresh + 1

/-- `free_file_spec`: the neighbours of the freed spec are linked to each other. -/
def freeFileSpec (h : Heap) (s : SpecId) : Heap :=
  let h := match h.prevSpec s with
    | some p => h.setNext p (h.nextSpec s)
    | none => h
  match h.nextSpec s with
  | some n => h.setPrev n (h.prevSpec s)
  | none => h

end Heap

end Renameutils
