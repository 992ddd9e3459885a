import Renameutils.FileSpec

/-!
# Reading the edit file

The `input` functions of the edit formats share their outer loop: they go through the specs of
`edit_file_list` and read the record of each from the edited file. `readRecords` is that loop over the
text alone, `inputLoop` the loop as it is, which assigns `new_name` on the way.
-/

namespace Renameutils

/-- What `read_line` gives. A line is the buffer of `getline` before its last NUL, with its newline and
whatever else the file has there. -/
inductive ReadResult where
  | line (buf : List UInt8)
  | eof
  | error
deriving DecidableEq, Repr

/-- What the calls of `read_line` on the edited file will give; after that they give `eof`. -/
abbrev TextFile := List ReadResult

def readLine : TextFile → ReadResult × TextFile
  | [] => (.eof, [])
  | r :: file => (r, file)

/-- The string that starts at index `i` of a line. `none` if that is not in the line. -/
def stringAt (buf : List UInt8) (i : Nat) : Option CString :=
  if i ≤ buf.length then some ((buf.drop i).takeWhile (· ≠ 0)) else none

/-- A line as a string. -/
def lineString (buf : List UInt8) : CString := buf.takeWhile (· ≠ 0)

/-- The character at index `i` of a line. `none` if that is not in the line. -/
def charAt (buf : List UInt8) (i : Nat) : Option UInt8 :=
  if i = buf.length then some 0 else buf[i]?

/-- `chomp` of a line in its buffer. -/
def chompLine (buf : List UInt8) : List UInt8 :=
  if (lineString buf).getLast? = some CString.newline then buf.set ((lineString buf).length - 1) 0 else buf

/-- What the edit formats see of the specs. A `newName` of `none` is `NULL`, which is what
`dequote_output_file` returns for some strings. -/
structure EditSpecs where
  oldName : SpecId → CString
  newName : SpecId → Option CString
  status : SpecId → FileSpecStatus

def EditSpecs.setNewName (specs : EditSpecs) (s : SpecId) (name : Option CString) : EditSpecs :=
  { specs with newName := Function.update specs.newName s name }

/-- How the reading of a record ends. `undefined` is the use of `NULL` as a string or of a character
outside of the line. -/
inductive Verdict (σ : Type) where
  | accepted (rest : σ)
  | rejected
  | undefined
deriving DecidableEq, Repr

/-- The record of one spec: the value that is assigned to `new_name`, if one is, and how the reading
ends. -/
structure Record (σ : Type) where
  newName : Option (Option CString)
  verdict : Verdict σ
deriving DecidableEq, Repr

namespace Record
variable {σ : Type}

def rejected : Record σ := ⟨none, .rejected⟩

def undefined : Record σ := ⟨none, .undefined⟩

end Record

/-- What `input` gives. -/
inductive InputResult where
  | returned (result : Bool) (specs : EditSpecs)
  | undefined

section
variable {σ : Type} (record : CString → Bool → σ → Record σ) (finish : σ → Bool)

/-- The loop of `input`: `record oldName hasNext` reads one record, and `finish` says whether the file
may end as it does. -/
def inputLoop : List SpecId → σ → EditSpecs → InputResult
  | [], file, specs => .returned (finish file) specs
  | spec :: rest, file, specs =>
    let r := record (specs.oldName spec) (!rest.isEmpty) file
    let specs := match r.newName with
      | some name => specs.setNewName spec name
      | none => specs
    match r.verdict with
    | .accepted file => inputLoop rest file specs
    | .rejected => .returned false specs
    | .undefined => .undefined

/-- The names that the records give, up to the first one that is not accepted, and how the reading
ends. -/
def readRecords (oldName : SpecId → CString) :
    List SpecId → σ → List (SpecId × Option CString) × Verdict σ
  | [], file => ([], .accepted file)
  | spec :: rest, file =>
    let r := record (oldName spec) (!rest.isEmpty) file
    let given := r.newName.toList.map (spec, ·)
    match r.verdict with
    | .accepted file =>
      let (names, verdict) := readRecords oldName rest file
      (given ++ names, verdict)
    | verdict => (given, verdict)

/-- Whether a text is accepted. `none` if the reading is undefined. -/
def Verdict.result : Verdict σ → Option Bool
  | .accepted file => some (finish file)
  | .rejected => some false
  | .undefined => none

end

namespace EditSpecs

/-- Assign names one after the other. -/
def assign (specs : EditSpecs) (names : List (SpecId × Option CString)) : EditSpecs :=
  names.foldl (fun specs p => specs.setNewName p.1 p.2) specs

variable {specs : EditSpecs} {names : List (SpecId × Option CString)}

@[simp] theorem assign_oldName : (specs.assign names).oldName = specs.oldName := by
  induction names generalizing specs with
  | nil => rfl
  | cons p names ih => exact ih

@[simp] theorem assign_status : (specs.assign names).status = specs.status := by
  induction names generalizing specs with
  | nil => rfl
  | cons p names ih => exact ih

theorem assign_newName (s : SpecId) :
    (specs.assign names).newName s = (names.reverse.lookup s).getD (specs.newName s) := by
  induction names using List.reverseRecOn with
  | nil => rfl
  | append_singleton names p ih =>
    rw [assign, List.foldl_append, List.reverse_append]
    show Function.update (specs.assign names).newName p.1 p.2 s = _
    rw [Function.update_apply, ih]
    show _ = (List.lookup s (p :: names.reverse)).getD _
    rw [List.lookup_cons]
    by_cases h : s = p.1
    · rw [if_pos h, h, beq_self_eq_true]; rfl
    · rw [if_neg h, beq_eq_false_iff_ne.mpr h]

end EditSpecs

section
variable {σ : Type} {record : CString → Bool → σ → Record σ} {finish : σ → Bool} {files : List SpecId}
  {file : σ} {specs : EditSpecs}

theorem inputLoop_eq : inputLoop record finish files file specs =
    match (readRecords record specs.oldName files file).2.result finish with
    | some result => .returned result (specs.assign (readRecords record specs.oldName files file).1)
    | none => .undefined := by
  induction files generalizing file specs with
  | nil => rfl
  | cons spec rest ih =>
    rw [inputLoop, readRecords]
    dsimp only
    cases hn : (record (specs.oldName spec) (!rest.isEmpty) file).newName <;>
      cases (record (specs.oldName spec) (!rest.isEmpty) file).verdict with
    | accepted file' => dsimp only; rw [ih]; rfl
    | rejected => rfl
    | undefined => rfl

theorem mem_of_readRecords {oldName : SpecId → CString} {p : SpecId × Option CString}
    (hp : p ∈ (readRecords record oldName files file).1) : p.1 ∈ files := by
  induction files generalizing file with
  | nil => cases hp
  | cons spec rest ih =>
    have hgiven : p ∈ (record (oldName spec) (!rest.isEmpty) file).newName.toList.map (spec, ·) →
        p.1 ∈ spec :: rest := by
      intro hp
      obtain ⟨n, _, rfl⟩ := List.mem_map.mp hp
      exact List.mem_cons_self
    rw [readRecords] at hp
    dsimp only at hp
    cases hv : (record (oldName spec) (!rest.isEmpty) file).verdict <;> rw [hv] at hp
    · rcases List.mem_append.mp hp with hp | hp
      · exact hgiven hp
      · exact List.mem_cons_of_mem _ (ih hp)
    · exact hgiven hp
    · exact hgiven hp

end

end Renameutils
