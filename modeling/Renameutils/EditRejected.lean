import Renameutils.EditFormats

/-!
# The names that an edited file gives

`input` assigns the new names record by record, so that an edit that is rejected at some record has
changed the names that the records before it give. `EditFormat.readNames` are these names, and
`EditFormat.input_eq` says that `input` does no more than to assign them.
-/

namespace Renameutils

/-- The last name given to each spec is the name that it has. -/
def KeepsNames (names : List (SpecId × Option CString)) (newName : SpecId → Option CString) : Prop :=
  ∀ s n, names.reverse.lookup s = some n → n = newName s

theorem keepsNames_iff {names : List (SpecId × Option CString)} {specs : EditSpecs} :
    KeepsNames names specs.newName ↔ (specs.assign names).newName = specs.newName := by
  constructor
  · intro h
    funext s
    rw [EditSpecs.assign_newName]
    cases hl : names.reverse.lookup s with
    | none => rfl
    | some n => exact h s n hl
  · intro h s n hl
    rw [← congrFun h s, EditSpecs.assign_newName, hl]
    rfl

namespace EditFormat

/-- What the edited file says: the names that its records give to the specs, up to the first record that
is not accepted, and whether the file is accepted. -/
def readNames (o : FormatOptions) (realWidth : Nat) (files : List SpecId) (file : TextFile)
    (oldName : SpecId → CString) : EditFormat → List (SpecId × Option CString) × Option Bool
  | destinationOnly =>
    let r := readRecords (DestinationOnly.record o.destinationOnly) oldName files file
    (r.1, r.2.result fun _ => true)
  | singleColumn =>
    let r := readRecords (SingleColumn.record o.singleColumn) oldName files file
    (r.1, r.2.result fun _ => true)
  | dualColumn =>
    let r := readRecords (DualColumn.record o.dualColumn realWidth) oldName files ⟨[], file⟩
    (r.1, r.2.result DualColumn.finish)

variable {o : FormatOptions} {realWidth : Nat} {files : List SpecId} {file : TextFile} {specs : EditSpecs}

theorem input_eq (fmt : EditFormat) : fmt.input o realWidth files file specs =
    match (fmt.readNames o realWidth files file specs.oldName).2 with
    | some result =>
      .returned result (specs.assign (fmt.readNames o realWidth files file specs.oldName).1)
    | none => .undefined := by
  cases fmt <;> exact inputLoop_eq

theorem mem_of_readNames {oldName : SpecId → CString} {fmt : EditFormat} {p : SpecId × Option CString}
    (hp : p ∈ (fmt.readNames o realWidth files file oldName).1) : p.1 ∈ files := by
  cases fmt <;> exact mem_of_readRecords hp

theorem input_frame {fmt : EditFormat} {result : Bool} {specs' : EditSpecs}
    (h : fmt.input o realWidth files file specs = .returned result specs') :
    specs'.oldName = specs.oldName ∧ specs'.status = specs.status ∧
      ∀ t, t ∉ files → specs'.newName t = specs.newName t := by
  rw [input_eq] at h
  split at h
  · cases h
    refine ⟨EditSpecs.assign_oldName, EditSpecs.assign_status, fun t ht => ?_⟩
    have hnone : (fmt.readNames o realWidth files file specs.oldName).1.reverse.lookup t = none := by
      rw [List.lookup_eq_none_iff]
      intro p hp
      have hmem := mem_of_readNames (List.mem_reverse.mp hp)
      simp only [bne_iff_ne]
      rintro rfl
      exact ht hmem
    rw [EditSpecs.assign_newName, hnone]
    rfl
  · cases h

end EditFormat

end Renameutils
