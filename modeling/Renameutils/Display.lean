import Renameutils.Plan

/-!
# Displaying the plan (`display.c`)

What `display_plan` prints, line by line. `none` stands for `internal_error`.
-/

namespace Renameutils

/-- A line of the display; the names of `names` are printed as `quotearg` quotes them. -/
inductive DisplayLine where
  | text (line : String)
  | names (oldName newName : CString)
deriving DecidableEq, Repr

def displayNames (h : Heap) (spec : SpecId) : DisplayLine := .names (h.oldName spec) (h.newName spec)

def printErrorStatus : FileSpecStatus → Option DisplayLine
  | .oldMissing => some (.text "  Source file is missing, cannot rename/copy")
  | .duplicate => some (.text "  Destination file names are the same, cannot rename/copy")
  | .newExists => some (.text "  Destination file exists, cannot rename/copy")
  | _ => none

def printOkStatus (program : Program) : FileSpecStatus → Option DisplayLine
  | .circular => some (.text "  These renames were created due to circular renaming")
  | .apply => some (.text (if program = .qmv then "  Regular rename" else "  Regular copy"))
  | _ => none

/-- A loop of `display_plan` and the status that it prints at its end. -/
def displaySpecs (printStatus : FileSpecStatus → Option DisplayLine) (h : Heap) :
    List SpecId → FileSpecStatus → Option SpecId → Option (List DisplayLine)
  | [], _, none => some []
  | [], _, some lastSpec => do return [← printStatus (h.status lastSpec)]
  | spec :: rest, lastStatus, lastSpec => do
    let tail ← displaySpecs printStatus h rest (h.status spec) (some spec)
    if lastSpec ≠ none ∧ lastStatus ≠ h.status spec then
      return (← printStatus (h.status spec)) :: displayNames h spec :: tail
    else
      return displayNames h spec :: tail

def displayPlan (program : Program) (h : Heap) (plan : ApplyPlan) : Option (List DisplayLine) := do
  let head :=
    if plan.error ≠ [] then "Plan contains errors.\n"
    else if plan.ok = [] then "Plan is empty (no changes made)."
    else "Plan is valid.\n"
  let errors ← displaySpecs printErrorStatus h plan.error .unchecked none
  let between := if plan.error ≠ [] ∧ plan.ok ≠ [] then [.text ""] else []
  -- `last_status` keeps its value, but `last_spec` is `NULL` again
  let lastStatus := (plan.error.getLast?.map h.status).getD .unchecked
  let oks ← displaySpecs (printOkStatus program) h plan.ok lastStatus none
  return .text head :: errors ++ between ++ oks ++ [.text ""]

section
variable {h : Heap}

theorem displaySpecs_isSome {printStatus : FileSpecStatus → Option DisplayLine} {l : List SpecId}
    (hl : ∀ s ∈ l, (printStatus (h.status s)).isSome = true) (lastStatus : FileSpecStatus)
    (lastSpec : Option SpecId) (hlast : ∀ s ∈ lastSpec, (printStatus (h.status s)).isSome = true) :
    (displaySpecs printStatus h l lastStatus lastSpec).isSome = true := by
  induction l generalizing lastStatus lastSpec with
  | nil =>
    cases lastSpec with
    | none => rfl
    | some s =>
      obtain ⟨line, hline⟩ := Option.isSome_iff_exists.mp (hlast s rfl)
      simp [displaySpecs, hline]
  | cons s l ih =>
    have hs := hl s (by simp)
    obtain ⟨tail, htail⟩ := Option.isSome_iff_exists.mp
      (ih (fun t ht => hl t (List.mem_cons_of_mem _ ht)) (h.status s) (some s)
        (fun t ht => by cases ht; exact hs))
    obtain ⟨line, hline⟩ := Option.isSome_iff_exists.mp hs
    simp only [displaySpecs, htail, hline, Option.bind_eq_bind, Option.bind_some]
    split <;> rfl

/-- When the lists of a plan hold specs with the statuses that they are for, `display_plan` does not
reach `internal_error`. -/
theorem displayPlan_isSome {plan : ApplyPlan} (program : Program)
    (herror : ∀ s ∈ plan.error, (h.status s).isError = true)
    (hok : ∀ s ∈ plan.ok, (h.status s).isOk = true) : (displayPlan program h plan).isSome = true := by
  have herror' : ∀ s ∈ plan.error, (printErrorStatus (h.status s)).isSome = true := by
    intro s hs
    have := herror s hs
    cases hst : h.status s <;> simp_all [FileSpecStatus.isError, printErrorStatus]
  have hok' : ∀ s ∈ plan.ok, (printOkStatus program (h.status s)).isSome = true := by
    intro s hs
    have := hok s hs
    cases hst : h.status s <;> simp_all [FileSpecStatus.isOk, printOkStatus]
  obtain ⟨errors, he⟩ := Option.isSome_iff_exists.mp
    (displaySpecs_isSome herror' .unchecked none (by simp))
  obtain ⟨oks, ho⟩ := Option.isSome_iff_exists.mp
    (displaySpecs_isSome hok' ((plan.error.getLast?.map h.status).getD .unchecked) none (by simp))
  simp only [displayPlan, he, ho, Option.bind_eq_bind, Option.bind_some]
  rfl

end

end Renameutils
